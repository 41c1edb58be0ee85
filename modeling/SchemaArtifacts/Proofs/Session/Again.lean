import SchemaArtifacts.Proofs.Session.Account
import SchemaArtifacts.Proofs.Session.Found

/-!
# Exporting again

After an export of a schema without failures, everything that the schema has artifacts for is there.
So a second export, on the same cache or on a fresh one, finds each of them and does nothing else: it
begins no write, changes no file, and reports what the first has written or found as cached.

## Main definitions

* `Cache.Again` — a cache is used again
* `Delivery.Stage.Repeats` — how far a delivery can be that finds what there is
* `Report.Repeats` — what a second export reports

## Main results

* `Session.IsRepeat.play` — a second export changes nothing
* `Session.exists_repeat` — a second export repeats the first
* `Session.export_again` — exporting a schema again does nothing
-/

namespace SchemaArtifacts

open Cache Disk Relation

/-- A cache is used again, in whatever world: the same one, or a fresh one on the same root. -/
inductive Cache.Again (c : Cache) : Cache → Prop where
  | same (faults : List AbsolutePath → AbsolutePath → Moment → Option Interruption)
      (draws : Nat → Number) : Again c { c with faults, draws }
  | fresh (backoff : Backoff) (faults : List AbsolutePath → AbsolutePath → Moment → Option Interruption)
      (draws : Nat → Number) : Again c { c.renew with backoff, faults, draws }

namespace Cache

variable {c c' : Cache}

theorem Again.root (h : c.Again c') : c'.root = c.root := by
  cases h <;> rfl

theorem Again.disk (h : c.Again c') : c'.disk = c.disk := by
  cases h <;> rfl

theorem Again.quiescent (h : c.Again c') (hq : c.Quiescent) : c'.Quiescent := by
  cases h with
  | same => exact hq
  | fresh => simp [Cache.Quiescent, renew]

theorem Again.balanced (h : c.Again c') (hb : c.Balanced) : c'.Balanced := by
  cases h with
  | same => exact hb.of_kept rfl rfl rfl rfl
  | fresh =>
    apply IsFresh.balanced
    exact ⟨rfl, rfl, rfl, rfl⟩

theorem Quiescent.inFlight_eq_false (h : c.Quiescent) {job : Job} (hj : job ∈ c.jobs) :
    job.stage.inFlight = false := by
  simpa [Stage.inFlight] using (h job hj).1

end Cache

/-- What is there is there when the cache is used again. -/
theorem Document.IsThere.again {c c' : Cache} {format : Format} {doc : Document}
    (h : doc.IsThere c format) (hagain : c.Again c') : doc.IsThere c' format := by
  obtain ⟨out, path, hartifact, hpresent⟩ := h
  exact ⟨out, path, by rwa [hagain.root], by rwa [hagain.disk]⟩

namespace Delivery

variable {c c' : Cache} {doc : Document} {format : Format} {stage stage' : Stage}

/-- How far a delivery can be that finds what there is. -/
inductive Stage.Repeats (c : Cache) (doc : Document) (format : Format) : Stage → Prop where
  | ready : Repeats c doc format .ready
  | looking (out : String) (path : AbsolutePath) (artifact : doc.HasArtifact c.root format out path)
      (there : c.disk.exists_ path) : Repeats c doc format (.looking out path)
  | answered (out : String) (there : doc.IsThere c format) :
      Repeats c doc format (.answered out true)
  | cached (there : doc.IsThere c format) : Repeats c doc format (.ended (.ok .cached))
  | skipped (none : doc.IsSkipped c.root format) : Repeats c doc format (.ended (.ok .skipped))

/-- A delivery that finds what there is goes on to find it, and leaves the cache as it is. -/
theorem Stage.Repeats.turn (h : stage.Repeats c doc format)
    (hdoc : doc.IsThere c format ∨ doc.IsSkipped c.root format)
    (hturn : Turn c doc format stage c' stage') : c' = c ∧ stage'.Repeats c doc format := by
  cases h with
  | ready =>
    cases hturn with
    | refused result other none always =>
      rcases hdoc with ⟨out, path, hartifact, -⟩ | hskipped
      · exact absurd hartifact (none out path)
      · have hsame := (always c rfl).symm.trans (hskipped.always c rfl)
        rw [(Prod.mk.inj hsame).2]
        exact ⟨rfl, .skipped hskipped⟩
    | known out path artifact =>
      exact ⟨rfl, .cached (hdoc.resolve_right fun hskipped => hskipped.none out path artifact)⟩
    | looks out path artifact =>
      rcases hdoc with ⟨out', path', hartifact, hthere⟩ | hskipped
      · obtain ⟨-, rfl⟩ := artifact.unique hartifact
        exact ⟨rfl, .looking out path' artifact hthere⟩
      · exact absurd artifact (hskipped.none out path)
  | looking out path artifact there =>
    cases hturn with
    | answers =>
      rw [there]
      exact ⟨rfl, .answered out ⟨out, path, artifact, there⟩⟩
  | answered out there =>
    cases hturn with
    | present => exact ⟨rfl, .cached there⟩
  | cached there =>
    cases hturn with
    | rests => exact ⟨rfl, .cached there⟩
  | skipped none =>
    cases hturn with
    | rests => exact ⟨rfl, .skipped none⟩

end Delivery

/-! ## Reports of a second export -/

/-- How the ends of two exports of a document go together: the second finds what the first has written
or found, or both are skipped. -/
inductive ExportStatus.Repeats : ExportStatus → ExportStatus → Prop where
  | written : Repeats .written .cached
  | cached : Repeats .cached .cached
  | skipped : Repeats .skipped .skipped

namespace ExportStatus.Repeats

variable {first second : ExportStatus}

theorem shown_cached_iff (h : first.Repeats second) : second.shown = ExportStatus.cached.shown ↔
    first.shown = ExportStatus.written.shown ∨ first.shown = ExportStatus.cached.shown := by
  cases h <;> simp [shown]

theorem shown_skipped_iff (h : first.Repeats second) :
    second.shown = ExportStatus.skipped.shown ↔ first.shown = ExportStatus.skipped.shown := by
  cases h <;> simp [shown]

end ExportStatus.Repeats

namespace Report

variable {first second : Report}

/-- A second report has nothing written and nothing failed: what the first has as written or cached is
cached, and what it has skipped is skipped. -/
structure Repeats (first second : Report) : Prop where
  written : second.written = []
  failed : second.failed = []
  cached : second.cached.Perm (first.written ++ first.cached)
  skipped : second.skipped.Perm first.skipped

/-- Where no name is twice, it is enough that the names are the same. -/
theorem repeats_of_mem (hnodup : first.names.Nodup) (hnodup' : second.names.Nodup)
    (hwritten : second.written = []) (hfailed : second.failed = [])
    (hcached : ∀ name, name ∈ second.cached ↔ name ∈ first.written ∨ name ∈ first.cached)
    (hskipped : ∀ name, name ∈ second.skipped ↔ name ∈ first.skipped) : first.Repeats second := by
  have hlists := (List.nodup_append.1 (List.nodup_append.1 hnodup).1)
  have hlists' := (List.nodup_append.1 (List.nodup_append.1 hnodup').1)
  refine ⟨hwritten, hfailed, ?_, ?_⟩
  · refine (List.perm_ext_iff_of_nodup (List.nodup_append.1 hlists'.1).2.1 hlists.1).2 fun name => ?_
    rw [hcached, List.mem_append]
  · exact (List.perm_ext_iff_of_nodup hlists'.2.1 hlists.2.1).2 hskipped

end Report

namespace Session

variable {s : Session} {c c' : Cache} {orders : List (Document × Format)}
  {deliveries' : List Delivery}

/-- A session that exports again what there is: its cache is as it was. -/
structure IsRepeat (c : Cache) (orders : List (Document × Format)) (s : Session) : Prop where
  runs : s.Runs orders
  cache : s.cache = c
  stages : ∀ (i : Nat) (d : Delivery) (order : Document × Format), s.deliveries[i]? = some d →
    orders[i]? = some order → d.stage.Repeats c order.1 order.2

/-- An orderly move of a second export changes nothing. -/
theorem IsRepeat.play (h : s.IsRepeat c orders) (hq : c.Quiescent)
    (horders : ∀ order ∈ orders,
      order.1.IsThere c order.2 ∨ order.1.IsSkipped c.root order.2) {m : Move} (hm : m.isOrderly) :
    (s.play m).IsRepeat c orders := by
  have hruns := h.runs.play m
  have hturn := turn_play h.runs hm
  have hcache := h.cache
  suffices hsame : (s.play m).cache = c ∧ ∀ (i : Nat) (d : Delivery) (order : Document × Format),
      (s.play m).deliveries[i]? = some d → orders[i]? = some order →
      d.stage.Repeats c order.1 order.2 from ⟨hruns, hsame.1, hsame.2⟩
  generalize (s.play m).cache = c' at hturn
  generalize (s.play m).deliveries = deliveries' at hturn
  subst hcache
  cases hturn with
  | still => exact ⟨rfl, h.stages⟩
  | step i d d' order c' there ordered turn =>
    obtain ⟨rfl, hstage⟩ := (h.stages i d order there ordered).turn
      (horders order (List.mem_of_getElem? ordered)) turn
    refine ⟨rfl, forall_getElem?_set (fun order' ho => ?_)
      fun j e order' _ he ho => h.stages j e order' he ho⟩
    cases ordered.symm.trans ho
    exact hstage
  | write id job there inFlight =>
    rw [hq.inFlight_eq_false (List.mem_of_getElem? there)] at inFlight
    cases inFlight
  | settle id job there ended fresh =>
    rw [(hq job (List.mem_of_getElem? there)).2] at fresh
    cases fresh

theorem isRepeat_playAll (h : s.IsRepeat c orders) (hq : c.Quiescent)
    (horders : ∀ order ∈ orders,
      order.1.IsThere c order.2 ∨ order.1.IsSkipped c.root order.2) {moves : List Move}
    (hmoves : ∀ m ∈ moves, m.isOrderly) : (s.playAll moves).IsRepeat c orders := by
  induction moves generalizing s with
  | nil => exact h
  | cons m moves ih =>
    obtain ⟨hm, hrest⟩ := List.forall_mem_cons.1 hmoves
    exact ih (h.play hq horders hm) hrest

variable {format : Format} {docs : List Document} {limit : Nat} {moves : List Move}

theorem isRepeat_ofDocuments (hb : c.Balanced) (format : Format) (limit : Nat)
    (docs : List Document) :
    (ofDocuments c format limit docs).IsRepeat c (docs.map fun doc => (doc, format)) := by
  refine ⟨runs_ofDocuments hb format limit docs, rfl, fun i d order hd _ => ?_⟩
  obtain ⟨doc, -, rfl⟩ := List.mem_map.1 (List.mem_of_getElem? hd)
  exact .ready

/-- How a delivery of a second export ends: its artifact is found, or there can be none. -/
theorem IsRepeat.result_of_ends {i : Nat} {doc : Document} {result : Except Failure ExportStatus}
    (h : s.IsRepeat c (docs.map fun doc => (doc, format))) (hends : s.Ends i doc result) :
    result = .ok .cached ∧ doc.IsThere c format ∨
      result = .ok .skipped ∧ doc.IsSkipped c.root format := by
  obtain ⟨d, hd, hdoc, hresult⟩ := hends
  obtain ⟨order, ho⟩ := h.runs.exists_order hd
  have hstage := h.stages i d order hd ho
  have hbrings := h.runs.brings i d order hd ho
  cases hdoc.symm.trans hbrings.standsFor.doc
  rw [List.getElem?_map, Option.map_eq_some_iff] at ho
  obtain ⟨doc, -, rfl⟩ := ho
  rw [Delivery.stage_of_result? hresult] at hstage
  cases hstage with
  | cached there => exact Or.inl ⟨rfl, there⟩
  | skipped none => exact Or.inr ⟨rfl, none⟩

/-- A report of ends of which none is written or failed has nothing written or failed. -/
theorem written_failed_report (h : ∀ i doc result, s.Ends i doc result →
    result = .ok .cached ∨ result = .ok .skipped) :
    s.report.written = [] ∧ s.report.failed = [] := by
  have hfold : ∀ (noted : List Nat) (r : Report), r.written = [] → r.failed = [] →
      (noted.foldl s.note r).written = [] ∧ (noted.foldl s.note r).failed = [] := by
    intro noted
    induction noted with
    | nil => exact fun r hw hf => ⟨hw, hf⟩
    | cons i noted ih =>
      intro r hw hf
      rw [List.foldl_cons]
      rcases s.note_eq r i with ⟨doc, status, hends, heq⟩ | ⟨doc, e, hends, -⟩ | ⟨-, heq⟩
      · rw [heq]
        rcases h i doc _ hends with hresult | hresult <;> cases hresult <;> exact ih _ hw hf
      · rcases h i doc _ hends with hresult | hresult <;> cases hresult
      · rw [heq]
        exact ih r hw hf
  exact hfold s.ended {} rfl rfl

variable {t : Session}

/-- When the first export has ended without a failure, each artifact is there or can never be. -/
theorem IsSteady.exists_status (hs : s.IsSteady (docs.map fun doc => (doc, format)))
    (hfound : HaveFound s.cache (docs.map fun doc => (doc, format)) s.deliveries)
    (hnoted : s.IsNoted) (hidle : s.IsIdle) (hfailed : s.report.failed = [])
    (hnames : ∀ doc ∈ docs, ∃ name, doc.name = .string name) {i : Nat} {doc : Document}
    (hi : docs[i]? = some doc) : ∃ status, s.Ends i doc (.ok status) ∧
      ((status = .written ∨ status = .cached) ∧ doc.IsThere s.cache format ∨
        status = .skipped ∧ doc.IsSkipped s.cache.root format) := by
  obtain ⟨result, hends⟩ := hidle.exists_ends hs.runs hi
  cases result with
  | error e =>
    obtain ⟨text, htext⟩ := hnames doc (List.mem_of_getElem? hi)
    have hmem := (mem_failed_report_iff hnoted).2 ⟨i, doc, e, hends, htext⟩
    rw [hfailed] at hmem
    cases hmem
  | ok status =>
    obtain ⟨d, hd, hdoc, hresult⟩ := id hends
    have ho : (docs.map fun doc => (doc, format))[i]? = some (doc, format) := by
      rw [List.getElem?_map, hi]
      rfl
    exact ⟨status, hends,
      hs.there_or_isSkipped hfound hd ho (Delivery.stage_of_result? hresult)⟩

/-- Where the two ends of each delivery go together, what holds of the one holds of the other. -/
theorem exists_ends_iff {p q : ExportStatus → Prop} (hpq : ∀ {a b}, ExportStatus.Repeats a b → (p a ↔ q b))
    (hplaced : ∀ i doc result, s.Ends i doc result → docs[i]? = some doc)
    (hplaced' : ∀ i doc result, t.Ends i doc result → docs[i]? = some doc)
    (hmatch : ∀ i doc, docs[i]? = some doc → ∃ status status' : ExportStatus,
      s.Ends i doc (.ok status) ∧ t.Ends i doc (.ok status') ∧ status.Repeats status')
    (i : Nat) (doc : Document) : (∃ status, s.Ends i doc (.ok status) ∧ p status) ↔
      ∃ status, t.Ends i doc (.ok status) ∧ q status := by
  constructor
  · rintro ⟨status, hends, hp⟩
    obtain ⟨_, status', hother, hends', hrepeats⟩ := hmatch i doc (hplaced i doc _ hends)
    cases (hends.unique hother).2
    exact ⟨status', hends', (hpq hrepeats).1 hp⟩
  · rintro ⟨status', hends', hq⟩
    obtain ⟨status, _, hends, hother, hrepeats⟩ := hmatch i doc (hplaced' i doc _ hends')
    cases (hends'.unique hother).2
    exact ⟨status, hends, (hpq hrepeats).2 hq⟩

/-- A second export repeats the first if each delivery does: what was written or found is found, and
what was skipped is skipped. -/
theorem repeats_report (hnoted : s.IsNoted) (hnoted' : t.IsNoted) (hnodup : s.report.names.Nodup)
    (hnodup' : t.report.names.Nodup)
    (hplaced : ∀ i doc result, s.Ends i doc result → docs[i]? = some doc)
    (hplaced' : ∀ i doc result, t.Ends i doc result → docs[i]? = some doc)
    (hmatch : ∀ i doc, docs[i]? = some doc → ∃ status status' : ExportStatus,
      s.Ends i doc (.ok status) ∧ t.Ends i doc (.ok status') ∧ status.Repeats status')
    (hwritten : t.report.written = []) (hfailed : t.report.failed = []) :
    s.report.Repeats t.report := by
  refine Report.repeats_of_mem hnodup hnodup' hwritten hfailed (fun name => ?_) fun name => ?_
  · show name ∈ t.report.listed .cached ↔
      name ∈ s.report.listed .written ∨ name ∈ s.report.listed .cached
    rw [mem_listed_report_iff hnoted, mem_listed_report_iff hnoted, mem_listed_report_iff hnoted']
    simp only [← exists_or, ← and_or_left]
    refine exists_congr fun i => exists_congr fun doc => Iff.symm ?_
    exact exists_ends_iff (fun h => and_congr_right fun _ => h.shown_cached_iff.symm) hplaced hplaced'
      hmatch i doc
  · show name ∈ t.report.listed .skipped ↔ name ∈ s.report.listed .skipped
    rw [mem_listed_report_iff hnoted, mem_listed_report_iff hnoted']
    refine exists_congr fun i => exists_congr fun doc => Iff.symm ?_
    exact exists_ends_iff (fun h => and_congr_right fun _ => h.shown_skipped_iff.symm) hplaced hplaced'
      hmatch i doc

/-- After an export of documents without failures, a second one leaves the cache as it is and repeats the
first. -/
theorem exists_repeat {c₀ : Cache} (hsteady : c₀.Steady) (hq : c₀.Quiescent)
    (hformat : format = .typeScript ∨ format = .javaScript)
    (hnames : ∀ doc ∈ docs, ∃ name, doc.name = .string name)
    (hnodup : (docs.map fun d => d.name).Nodup) {limit limit' : Nat} {moves moves' : List Move}
    (horderly : ∀ m ∈ moves, m.isOrderly) (horderly' : ∀ m ∈ moves', m.isOrderly)
    (hidle : ((ofDocuments c₀ format limit docs).playAll moves).IsIdle)
    (hfailed : ((ofDocuments c₀ format limit docs).playAll moves).report.failed = [])
    (hagain : ((ofDocuments c₀ format limit docs).playAll moves).cache.Again c) :
    ((ofDocuments c format limit' docs).playAll moves').cache = c ∧
      ((ofDocuments c format limit' docs).playAll moves').report.written = [] ∧
      ((ofDocuments c format limit' docs).playAll moves').report.failed = [] ∧
      (((ofDocuments c format limit' docs).playAll moves').IsIdle →
        ((ofDocuments c₀ format limit docs).playAll moves).report.Repeats
          ((ofDocuments c format limit' docs).playAll moves').report) := by
  have hbegan := isSteady_ofDocuments_of_ended hsteady (fun job => hq.inFlight_eq_false) hformat limit
    docs
  have hs := isSteady_playAll hbegan horderly
  have hfound := haveFound_playAll (haveFound_ofDocuments c₀ format limit docs _) hbegan horderly
  have hawaited := isAwaited_of_deeds (isAwaited_of_quiescent hq _) hbegan
    (deeds_playAll _ horderly)
  have hnoted := isNoted_playAll (isNoted_ofDocuments c₀ format limit docs) moves
  have haccounts := hidle.accounts_report hsteady.balanced hnames hnodup
  have hplaced : ∀ i doc result,
      ((ofDocuments c₀ format limit docs).playAll moves).Ends i doc result → docs[i]? = some doc :=
    fun i doc result hends => hends.getElem?_eq_some
  generalize (ofDocuments c₀ format limit docs).playAll moves = s at *
  have hquiet := hawaited.quiescent hs.steady.balanced hidle
  have hstatus := fun i doc (hi : docs[i]? = some doc) =>
    hs.exists_status hfound hnoted hidle hfailed hnames hi
  have hdocs : ∀ order ∈ docs.map fun doc => (doc, format),
      order.1.IsThere c order.2 ∨ order.1.IsSkipped c.root order.2 := by
    intro order horder
    obtain ⟨doc, hdoc, rfl⟩ := List.mem_map.1 horder
    obtain ⟨i, hi⟩ := List.getElem?_of_mem hdoc
    obtain ⟨status, -, ⟨-, hpresent⟩ | ⟨-, hskipped⟩⟩ := hstatus i doc hi
    · exact Or.inl (hpresent.again hagain)
    · exact Or.inr (by rwa [hagain.root])
  have hbalanced := hagain.balanced hs.steady.balanced
  have hrepeat := isRepeat_playAll (isRepeat_ofDocuments hbalanced format limit' docs)
    (hagain.quiescent hquiet) hdocs horderly'
  have hnoted' := isNoted_playAll (isNoted_ofDocuments c format limit' docs) moves'
  have hplaced' : ∀ i doc result,
      ((ofDocuments c format limit' docs).playAll moves').Ends i doc result → docs[i]? = some doc :=
    fun i doc result hends => hends.getElem?_eq_some
  have haccounts' := fun hidle' : ((ofDocuments c format limit' docs).playAll moves').IsIdle =>
    hidle'.accounts_report hbalanced hnames hnodup
  generalize (ofDocuments c format limit' docs).playAll moves' = t at *
  obtain ⟨hwritten', hfailed'⟩ := written_failed_report fun i doc result hends =>
    (hrepeat.result_of_ends hends).imp And.left And.left
  refine ⟨hrepeat.cache, hwritten', hfailed', fun hidle' => ?_⟩
  refine repeats_report hnoted hnoted' haccounts.nodup (haccounts' hidle').nodup hplaced hplaced'
    (fun i doc hi => ?_) hwritten' hfailed'
  obtain ⟨status, hends, hcases⟩ := hstatus i doc hi
  obtain ⟨result, hends'⟩ := hidle'.exists_ends hrepeat.runs hi
  rcases hrepeat.result_of_ends hends' with ⟨rfl, hpresent⟩ | ⟨rfl, hskipped⟩
  · refine ⟨status, .cached, hends, hends', ?_⟩
    rcases hcases with ⟨rfl | rfl, -⟩ | ⟨-, hskipped⟩
    · exact .written
    · exact .cached
    · rw [← hagain.root] at hskipped
      exact absurd hpresent hskipped.not_isThere
  · refine ⟨status, .skipped, hends, hends', ?_⟩
    rcases hcases with ⟨-, hpresent⟩ | ⟨rfl, -⟩
    · exact absurd (hpresent.again hagain) hskipped.not_isThere
    · exact .skipped

/-- Exporting again does nothing. On a cache that is fresh or has been used before, with nothing under
way, a schema is exported without failures. Then a second export of it, on the same cache or on a fresh
one on the same root, whatever befalls the writes, leaves the cache and its disk as they are: it begins
no try of a write, it reports nothing as written or failed, as cached what the first has reported as
written or cached, and as skipped what the first has. This is so for every course of moves of either,
and the second export does return its report. -/
theorem export_again {c₀ : Cache} (fresh : c₀.IsFresh) (hfree : IsFreeBelow c₀.disk c₀.root)
    {before : Session} (hbefore : ReflTransGen Deed { cache := c₀ } before) (hidle : before.IsIdle)
    {schema : Schema} (hschema : schema.IsTyped) {request : ExportRequest} {format : Format}
    (hrequest : request.IsTyped format) {docs : List Document}
    (hdocs : schema.collect request.roots = .ok docs) :
    (∀ (limit : Nat) (moves : List Move), (∀ m ∈ moves, m.isOrderly) →
      let first := (ofDocuments before.cache format limit docs).playAll moves
      first.IsIdle → first.report.failed = [] →
      ∀ c, first.cache.Again c → ∀ (limit' : Nat) (moves' : List Move), (∀ m ∈ moves', m.isOrderly) →
        let second := (ofDocuments c format limit' docs).playAll moves'
        second.cache = c ∧ second.report.written = [] ∧ second.report.failed = [] ∧
          (second.IsIdle → first.report.Repeats second.report)) ∧
    (¬ before.cache.backoff.IsPatient → ∀ report c₁,
      (exportAll request schema).run before.cache = (.ok report, c₁) → report.failed = [] →
      ∀ c, c₁.Again c → ¬ c.backoff.IsPatient → ∀ request' : ExportRequest, request'.IsTyped format →
        request'.roots = request.roots → ∃ report',
          (exportAll request' schema).run c = (.ok report', c) ∧ report.Repeats report') := by
  have hempty : (ofOrders c₀ 20 []).IsSteady [] :=
    isSteady_ofOrders (fresh.steady hfree) (by simp [fresh.jobs]) 20 (by simp [AreKnown])
  obtain ⟨orders, hs⟩ := steady_of_deeds hempty hbefore
  have hawaited := isAwaited_of_deeds (fun id job hj => by simp [ofOrders, fresh.jobs] at hj) hempty
    hbefore
  have hq := hawaited.quiescent hs.steady.balanced hidle
  have hformat := hrequest.known
  obtain ⟨hnames, hnodup⟩ := hschema.names_collect hrequest.roots hdocs
  refine ⟨fun limit moves horderly hended hfailed c hagain limit' moves' horderly' =>
    exists_repeat hs.steady hq hformat hnames hnodup horderly horderly' hended hfailed hagain,
    fun hlimited report c₁ hrun hfailed c hagain hlimited' request' hrequest' hroots => ?_⟩
  have hdocs' : schema.collect request'.roots = .ok docs := by rw [hroots, hdocs]
  by_cases hne : docs = []
  · subst hne
    rw [run_exportAll_nil hdocs] at hrun
    cases hrun
    exact ⟨{}, run_exportAll_nil hdocs' c, rfl, rfl, .nil, .nil⟩
  · obtain ⟨elapsed, hran⟩ := exists_run_exportAll hrequest hdocs hne before.cache
    rw [hrun] at hran
    cases hran
    obtain ⟨moves, horderly, hfinish, hended⟩ :=
      (isGoing_ofDocuments hs.steady.balanced hlimited format hrequest.zero_lt docs).exists_finish
    obtain ⟨elapsed', hran'⟩ := exists_run_exportAll hrequest' hdocs' hne c
    have hbalanced : c.Balanced := by
      refine hagain.balanced ?_
      rw [← hfinish]
      exact (runs_playAll (runs_ofDocuments hs.steady.balanced format _ docs) moves).balanced
    obtain ⟨moves', horderly', hfinish', hended'⟩ :=
      (isGoing_ofDocuments hbalanced hlimited' format hrequest'.zero_lt docs).exists_finish
    rw [← hfinish] at hfailed hagain ⊢
    obtain ⟨hcache, -, -, hrepeats⟩ :=
      exists_repeat hs.steady hq hformat hnames hnodup horderly horderly' hended hfailed hagain
    have hreport := hrepeats hended'
    rw [hfinish'] at hcache hreport
    dsimp only at hran'
    rw [hcache] at hran'
    exact ⟨_, hran', hreport.written, hreport.failed, hreport.cached, hreport.skipped⟩

/-- Two documents share the path of their artifact, there is a file for one already, and one has no
path. Later every try of a write would fail, but a fresh cache makes none. -/
theorem export_again_faulty : ∃ (c₀ : Cache) (schema : Schema) (request : ExportRequest)
    (report report' : Report) (c₁ c : Cache), c₀.IsFresh ∧ IsFreeBelow c₀.disk c₀.root ∧
      schema.IsTyped ∧ request.IsTyped .typeScript ∧
      (exportAll request schema).run c₀ = (.ok report, c₁) ∧ report.failed = [] ∧
      report.written.map Json.text? = [some "/urn:a", some "a"] ∧
      report.cached.map Json.text? = [some "urn:a", some "b"] ∧ c₁.Again c ∧
      (∀ tries path moment, c.faults tries path moment ≠ none) ∧
      (exportAll request schema).run c = (.ok report', c) ∧ report.Repeats report' := by
  let full : Interruption :=
    { incident := { label := "OSError", transient := true, message := "full" } }
  let c₀ : Cache :=
    { root := { parts := ["c"] }
      disk := { entries := [(["c"], .directory), (["c", "b.d.ts"], .file "")] } }
  let x : Document := { name := .string "/urn:a" }
  let y : Document := { name := .string "urn:a" }
  let a : Document := { name := .string "a" }
  let b : Document := { name := .string "b" }
  let q : Document := { name := .string "http://e.org/a?" }
  let schema : Schema := { documents := [x, y, a, b, q].map fun doc => (doc.name, doc) }
  let request : ExportRequest :=
    { concurrency := 1, roots := .list [x.name, y.name, a.name, b.name, q.name]
      start := .real (.finite false 1), finish := .real (.finite false 2) }
  have hfresh : c₀.IsFresh := ⟨rfl, rfl, rfl, rfl⟩
  have hfree : IsFreeBelow c₀.disk c₀.root :=
    isFreeBelow_of_isLinkFree (isLinkFree_of_entries (by simp [c₀])) c₀.root
  have hschema : schema.IsTyped :=
    ⟨⟨by simp [schema], by decide⟩, by simp [schema, x, y, a, b, q], by simp [schema, x, y, a, b, q]⟩
  have hrequest : request.IsTyped .typeScript :=
    ⟨Or.inr ⟨["/urn:a", "urn:a", "a", "b", "http://e.org/a?"], rfl⟩, rfl, by decide, ⟨_, rfl⟩,
      ⟨_, rfl⟩⟩
  obtain ⟨docs, hdocs, -⟩ := hschema.exists_collect hrequest.roots
  have hlimited : ¬ c₀.backoff.IsPatient := by simp [c₀, Backoff.IsPatient]
  have hran : ((exportAll request schema).run c₀).1.toOption.map (fun r =>
      (r.failed.isEmpty, r.written.map Json.text?, r.cached.map Json.text?)) =
      some (true, [some "/urn:a", some "a"], [some "urn:a", some "b"]) := by decide +kernel
  obtain ⟨report, c₁, hrun, hlists⟩ := Act.exists_of_map_run hran
  obtain ⟨hnone, hlists⟩ := Prod.mk.inj hlists
  obtain ⟨hwritten, hcached⟩ := Prod.mk.inj hlists
  have hfailed := List.isEmpty_iff.1 hnone
  let c : Cache := { c₁.renew with backoff := {}, faults := fun _ _ _ => some full }
  have hagain : c₁.Again c := .fresh {} _ c₁.draws
  have hlimited' : ¬ c.backoff.IsPatient := by simp [c, Backoff.IsPatient]
  have hfaulty : ∀ tries path moment, c.faults tries path moment ≠ none :=
    fun _ _ _ => Option.some_ne_none full
  obtain ⟨report', hrun', hrepeats⟩ :=
    (export_again hfresh hfree .refl (by simp [IsIdle]) hschema hrequest hdocs).2 hlimited report c₁
      hrun hfailed c hagain hlimited' request hrequest rfl
  exact ⟨c₀, schema, request, report, report', c₁, c, hfresh, hfree, hschema, hrequest, hrun, hfailed,
    hwritten, hcached, hagain, hfaulty, hrun', hrepeats⟩

end Session

end SchemaArtifacts
