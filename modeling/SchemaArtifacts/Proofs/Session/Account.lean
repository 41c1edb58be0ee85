import SchemaArtifacts.Proofs.Model.Collect
import SchemaArtifacts.Proofs.Session.Progress
import SchemaArtifacts.Proofs.Session.Uncalled

/-!
# Every document is accounted for

A delivery that ends is noted once. So when all deliveries have ended, in whatever order, each document
has had its name noted once, in the list that its end belongs to. No end is one that nobody has brought
about: a write that was never called off does not end as called off.

## Main definitions

* `Report.names` — all names in a report
* `Report.Accounts` — a report names each document once, and nothing else
* `ExportRequest.IsTyped` — a request that an export takes up

## Main results

* `Session.nodup_ended_playAll` — ends are noted once
* `Session.IsIdle.accounts_report` — when all has ended, the report accounts for the documents
* `Session.reported_once` — every document that is collected is reported once
-/

namespace SchemaArtifacts

open Cache

/-! ## The names in a report -/

/-- Setting a value under a text that is no key yet puts it at the end. -/
theorem Json.insert_of_notMem {α : Type} {text : String} {a : α} {table : List (Json × α)}
    (h : Json.string text ∉ table.map Prod.fst) :
    Json.insert (.string text) a table = table ++ [(.string text, a)] := by
  induction table with
  | nil => rfl
  | cons entry rest ih =>
    obtain ⟨key, b⟩ := entry
    rw [List.map_cons, List.mem_cons, not_or] at h
    have hother : ¬ key.sameKey (.string text) := fun hsame => h.1 (sameKey_string_iff.1 hsame).symm
    rw [insert, if_neg hother, ih h.2]
    rfl

namespace Report

variable {r : Report} {name : Json} {docs : List Document}

/-- All names in a report. -/
def names (r : Report) : List Json :=
  r.written ++ r.cached ++ r.skipped ++ r.failed.map Prod.fst

theorem length_names (r : Report) : r.names.length = r.total := by
  simp [names, total, Nat.add_assoc]

/-- A report has the name of each document in one place, and no other name. -/
structure Accounts (r : Report) (docs : List Document) : Prop where
  perm : r.names.Perm (docs.map fun d => d.name)
  nodup : r.names.Nodup
  total : r.total = docs.length

theorem accounts_of_perm (h : r.names.Perm (docs.map fun d => d.name))
    (hnames : (docs.map fun d => d.name).Nodup) : r.Accounts docs := by
  refine ⟨h, h.nodup_iff.2 hnames, ?_⟩
  rw [← length_names, h.length_eq, List.length_map]

theorem perm_names_record (r : Report) (name : Json) (status : ExportStatus) :
    (r.record name status).names.Perm (r.names ++ [name]) := by
  -- The name ends one of the four lists, so it is moved past the lists after that one.
  have hlast : ∀ before after : List Json,
      (before ++ [name] ++ after).Perm (before ++ after ++ [name]) := fun before after => by
    rw [List.append_assoc, List.append_assoc]
    exact (List.perm_append_comm).append_left before
  cases status with
  | written => simpa [names, record] using hlast r.written (r.cached ++ r.skipped ++ _)
  | cached => simpa [names, record] using hlast (r.written ++ r.cached) (r.skipped ++ _)
  | _ => simpa [names, record] using hlast (r.written ++ r.cached ++ r.skipped) _

theorem names_fail {text : String} (h : Json.string text ∉ r.names) (message : String) :
    (r.fail (.string text) message).names = r.names ++ [.string text] := by
  have hnew : Json.string text ∉ r.failed.map Prod.fst := fun hmem =>
    h (List.mem_append_right _ hmem)
  simp [names, fail, Json.insert_of_notMem hnew]

end Report

namespace Session

variable {s : Session} {i : Nat} {docs : List Document}

/-- Noting an end adds the name of the document. -/
theorem Ends.perm_names_note {doc : Document} {result : Except Failure ExportStatus}
    (h : s.Ends i doc result) {r : Report} {text : String} (htext : doc.name = .string text)
    (hnew : doc.name ∉ r.names) : (s.note r i).names.Perm (r.names ++ [doc.name]) := by
  rcases s.note_eq r i with ⟨doc', status, hends, heq⟩ | ⟨doc', e, hends, heq⟩ | ⟨hnone, -⟩
  · obtain ⟨rfl, -⟩ := h.unique hends
    rw [heq]
    exact r.perm_names_record _ status
  · obtain ⟨rfl, -⟩ := h.unique hends
    rw [htext] at hnew
    rw [heq, htext, Report.names_fail hnew]
  · exact absurd h (hnone doc result)

/-- Noting the ends of documents of different names adds each name once. -/
theorem perm_names_foldl_note {names : List Json} {noted : List Nat}
    (hnoted : ∀ i ∈ noted, ∃ doc result text, s.Ends i doc result ∧ names[i]? = some doc.name ∧
      doc.name = .string text)
    {r : Report} (hnodup : (r.names ++ noted.filterMap fun i => names[i]?).Nodup) :
    (noted.foldl s.note r).names.Perm (r.names ++ noted.filterMap fun i => names[i]?) := by
  induction noted generalizing r with
  | nil => simp
  | cons i noted ih =>
    obtain ⟨⟨doc, result, text, hends, hname, htext⟩, hrest⟩ := List.forall_mem_cons.1 hnoted
    rw [List.filterMap_cons_some hname, List.append_cons] at hnodup ⊢
    have hnew : doc.name ∉ r.names := fun hmem =>
      (List.disjoint_of_nodup_append (List.nodup_append.1 hnodup).1) hmem (List.mem_singleton_self _)
    have hstep := (hends.perm_names_note htext hnew).append_right
      (noted.filterMap fun i => names[i]?)
    exact (ih hrest (hstep.nodup_iff.2 hnodup)).trans hstep

/-! ## Ends are noted once -/

theorem nodup_ended_play (h : s.ended.Nodup) (m : Move) : (s.play m).ended.Nodup := by
  have hput : ∀ (t : Session) (i : Nat) (d : Delivery), t.ended = s.ended →
      (t.putDelivery i d).ended.Nodup := by
    intro t i d ht
    unfold putDelivery
    dsimp only
    rw [ht]
    split
    · rename_i hnew
      simp only [Bool.and_eq_true, Bool.not_eq_true', List.contains_eq_mem,
        decide_eq_false_iff_not] at hnew
      exact List.nodup_append.2 ⟨h, List.nodup_singleton i, by
        rintro a ha b hb rfl
        exact hnew.2 (List.mem_singleton.1 hb ▸ ha)⟩
    · exact h
  have hplays := s.plays_play m
  generalize s.play m = t at hplays ⊢
  cases hplays with
  | delivers m i d there turn =>
    rw [stepDelivery_of_getElem? there]
    exact hput _ i _ rfl
  | abandons i d there => exact hput s i _ rfl
  | _ => exact h

/-- Ends are noted once, whatever the course of moves. -/
theorem nodup_ended_playAll (h : s.ended.Nodup) (moves : List Move) :
    (s.playAll moves).ended.Nodup := by
  induction moves generalizing s with
  | nil => exact h
  | cons m moves ih => exact ih (nodup_ended_play h m)

/-- When all deliveries have ended, so has that of each document. -/
theorem IsIdle.exists_ends {format : Format} (h : s.IsIdle)
    (hruns : s.Runs (docs.map fun doc => (doc, format))) {doc : Document} (hi : docs[i]? = some doc) :
    ∃ result, s.Ends i doc result := by
  have ho : (docs.map fun doc => (doc, format))[i]? = some (doc, format) := by
    rw [List.getElem?_map, hi]
    rfl
  have hlt : i < s.deliveries.length := by
    rw [hruns.length]
    exact (List.getElem?_eq_some_iff.1 ho).1
  have hd := List.getElem?_eq_getElem hlt
  obtain ⟨result, hresult⟩ := h _ (List.mem_of_getElem? hd)
  refine ⟨result, _, hd, (hruns.brings i _ _ hd ho).standsFor.doc, ?_⟩
  unfold Delivery.result?
  rw [hresult]

/-- When all deliveries have ended, the report accounts for the documents. -/
theorem IsIdle.accounts_report {c : Cache} (hb : c.Balanced) {format : Format} {limit : Nat}
    {moves : List Move} (h : ((ofDocuments c format limit docs).playAll moves).IsIdle)
    (hnames : ∀ doc ∈ docs, ∃ name, doc.name = .string name)
    (hnodup : (docs.map fun d => d.name).Nodup) :
    ((ofDocuments c format limit docs).playAll moves).report.Accounts docs := by
  have hruns := runs_playAll (runs_ofDocuments hb format limit docs) moves
  have hnoted := isNoted_playAll (isNoted_ofDocuments c format limit docs) moves
  have hended := nodup_ended_playAll (s := ofDocuments c format limit docs) List.nodup_nil moves
  generalize hs : (ofDocuments c format limit docs).playAll moves = s at *
  have hends : ∀ i doc, docs[i]? = some doc → ∃ result, s.Ends i doc result :=
    fun i doc hi => h.exists_ends hruns hi
  have hof : ∀ i ∈ s.ended, ∃ doc result text, s.Ends i doc result ∧
      (docs.map fun d => d.name)[i]? = some doc.name ∧ doc.name = .string text := by
    intro i hi
    obtain ⟨d, result, hd, hresult⟩ := (hnoted i).1 hi
    obtain ⟨order, ho⟩ := hruns.exists_order hd
    rw [List.getElem?_map, Option.map_eq_some_iff] at ho
    obtain ⟨doc, hdoc, rfl⟩ := ho
    obtain ⟨result', hends'⟩ := hends i doc hdoc
    obtain ⟨text, htext⟩ := hnames doc (List.mem_of_getElem? hdoc)
    exact ⟨doc, result', text, hends', by rw [List.getElem?_map, hdoc]; rfl, htext⟩
  have hperm : (s.ended.filterMap fun i => (docs.map fun d => d.name)[i]?).Perm
      (docs.map fun d => d.name) := by
    refine (List.perm_ext_iff_of_nodup ?_ hnodup).2 fun name => ?_
    · refine hended.filterMap fun i j name hi hj => ?_
      exact (List.getElem?_inj (List.getElem?_eq_some_iff.1 hi).1 hnodup).1 (hi.trans hj.symm)
    · rw [List.mem_filterMap, List.mem_iff_getElem?]
      refine exists_congr fun i => and_iff_right_of_imp fun hi => ?_
      rw [List.getElem?_map, Option.map_eq_some_iff] at hi
      obtain ⟨doc, hdoc, -⟩ := hi
      obtain ⟨result, d, hd, -, hresult⟩ := hends i doc hdoc
      exact (hnoted i).2 ⟨d, result, hd, hresult⟩
  have hempty : ({} : Report).names = [] := rfl
  refine Report.accounts_of_perm (List.Perm.trans ?_ hperm) hnodup
  have hfold := perm_names_foldl_note (r := {}) hof
    (by rw [hempty, List.nil_append]; exact hperm.nodup_iff.2 hnodup)
  rwa [hempty, List.nil_append] at hfold

end Session

/-! ## Exports return a report -/

/-- A request that starts from texts, asks for a format that there is, lets deliveries begin, and has
its times from a clock. -/
structure ExportRequest.IsTyped (request : ExportRequest) (format : Format) : Prop where
  roots : request.roots.AreRoots
  format : Format.ofLabel request.format = .ok format
  concurrency : 1 ≤ request.concurrency
  start : ∃ x, request.start = .real x
  finish : ∃ x, request.finish = .real x

theorem ExportRequest.IsTyped.known {request : ExportRequest} {format : Format}
    (h : request.IsTyped format) : format = .typeScript ∨ format = .javaScript :=
  Format.eq_or_eq_of_ofLabel h.format

theorem ExportRequest.IsTyped.zero_lt {request : ExportRequest} {format : Format}
    (h : request.IsTyped format) : 0 < request.concurrency.toNat := by
  have hone := h.concurrency
  omega

/-- An export without documents returns an empty report. -/
theorem Cache.run_exportAll_nil {request : ExportRequest} {schema : Schema}
    (h : schema.collect request.roots = .ok []) (c : Cache) :
    (exportAll request schema).run c = (.ok {}, c) := by
  unfold exportAll
  rw [Act.run_bind, h]
  rfl

/-- An export of documents returns the report of their finished session, with some time. -/
theorem Cache.exists_run_exportAll {request : ExportRequest} {format : Format}
    (h : request.IsTyped format) {schema : Schema} {docs : List Document}
    (hdocs : schema.collect request.roots = .ok docs) (hne : docs ≠ []) (c : Cache) :
    ∃ elapsed, (exportAll request schema).run c =
      let done := (Session.ofDocuments c format request.concurrency.toNat docs).finish
      (.ok { done.report with elapsed }, done.cache) := by
  obtain ⟨x, hstart⟩ := h.start
  obtain ⟨y, hfinish⟩ := h.finish
  have hsub : request.finish.sub request.start = .ok (.real (y - x)) := by
    rw [hfinish, hstart]
    rfl
  have hempty : docs.isEmpty = false := by simpa using hne
  have hlimit : ¬ request.concurrency < 0 := by
    have hone := h.concurrency
    omega
  refine ⟨.real (y - x), ?_⟩
  unfold exportAll
  simp only [Act.run_bind, Act.run_get, Act.run_pure, hdocs, Act.run_ofExcept_ok, hempty, hlimit,
    h.format, hsub, Bool.false_eq_true, if_false]
  rfl

namespace Session

/-- Every document that is collected is reported once, whatever the cache and the disk are like and
whatever befalls the writes. No course of moves goes on for ever, and one that nothing can be added to
has come to the end of every delivery; whenever it has, the report has the name of each document in one
place, and no other name. So an export returns such a report. -/
theorem reported_once {schema : Schema} (hschema : schema.IsTyped) {request : ExportRequest}
    {format : Format} (hrequest : request.IsTyped format) {c : Cache} (hbalanced : c.Balanced)
    (huncalled : c.IsUncalled) (hlimited : ¬ c.backoff.IsPatient) :
    ∃ docs, schema.collect request.roots = .ok docs ∧
      (let began := ofDocuments c format request.concurrency.toNat docs
      (∀ moves, began.IsBusy moves → moves.length ≤ began.roundLimit) ∧
        ∀ moves : List Move, (∀ m ∈ moves, m.isOrderly) →
          let s := began.playAll moves
          (¬ s.IsIdle → ∃ m : Move, m.isOrderly ∧ s.play m ≠ s) ∧
            (∀ d ∈ s.deliveries, d.result? ≠ some (.error .cancelled)) ∧
            (s.IsIdle → s.report.Accounts docs)) ∧
      ∃ report c', (exportAll request schema).run c = (.ok report, c') ∧ report.Accounts docs := by
  obtain ⟨docs, hcollect, -⟩ := hschema.exists_collect hrequest.roots
  obtain ⟨hnames, hnodup⟩ := hschema.names_collect hrequest.roots hcollect
  have hgoing := isGoing_ofDocuments hbalanced hlimited format hrequest.zero_lt docs
  have haccounts : ∀ moves : List Move,
      ((ofDocuments c format request.concurrency.toNat docs).playAll moves).IsIdle →
      ((ofDocuments c format request.concurrency.toNat docs).playAll moves).report.Accounts docs :=
    fun _ hidle => hidle.accounts_report hbalanced hnames hnodup
  refine ⟨docs, hcollect, ⟨fun moves hbusy => ?_, fun moves hmoves => ⟨fun hopen => ?_, ?_, ?_⟩⟩, ?_⟩
  · have hle := hbusy.length_add_work_le hgoing
    have hwork := work_le_roundLimit (ofDocuments c format request.concurrency.toNat docs)
    omega
  · have hgoing' := isGoing_playAll hgoing moves
    obtain ⟨m, -, hm, hlt⟩ := hgoing'.exists_move fun hq => hopen hq.isIdle
    refine ⟨m, hm, fun hsame => ?_⟩
    rw [hsame] at hlt
    exact Nat.lt_irrefl _ hlt
  · exact not_ends_cancelled hbalanced huncalled hmoves
  · exact haccounts moves
  · by_cases hne : docs = []
    · subst hne
      exact ⟨{}, c, run_exportAll_nil hcollect c, Report.accounts_of_perm .nil List.nodup_nil⟩
    · obtain ⟨elapsed, hrun⟩ := Cache.exists_run_exportAll hrequest hcollect hne c
      refine ⟨_, _, hrun, ?_⟩
      obtain ⟨moves, -, hfinish, hidle⟩ := hgoing.exists_finish
      have h := haccounts moves hidle
      rw [hfinish] at h
      exact ⟨h.perm, h.nodup, h.total⟩

/-- Two documents import each other, two share the path of their artifact, one cannot be written, and
one has no path. A write of another text to the path of the first is on its way when the export
begins. -/
theorem reported_once_shared : ∃ (c : Cache) (schema : Schema) (request : ExportRequest)
    (docs : List Document) (report : Report) (c' : Cache), schema.IsTyped ∧
      request.IsTyped .typeScript ∧ c.Balanced ∧ c.IsUncalled ∧ ¬ c.backoff.IsPatient ∧
      ¬ c.Quiescent ∧ schema.collect request.roots = .ok docs ∧
      (exportAll request schema).run c = (.ok report, c') ∧
      report.written.map Json.text? = [some "a", some "/urn:a", some "urn:a", some "b"] ∧
      report.cached = [] ∧ report.skipped.map Json.text? = [some "http://e.org/a?"] ∧
      report.failed.map (fun entry => entry.1.text?) = [some "f"] ∧ report.Accounts docs := by
  let full : Interruption :=
    { incident := { label := "OSError", transient := true, message := "full" }, progress := 1 }
  let fresh : Cache :=
    { root := { parts := ["c"] }
      backoff := { maxRetries := .int 1 }
      faults := fun _ path moment =>
        if path.parts = ["c", "f.d.ts"] && moment = .filling then some full else none }
  let c : Cache := fresh.open_ { parts := ["c", "a.d.ts"] } "old"
  let a : Document :=
    { name := .string "a", imports := [(.string "B", .string "b")], used := ["B"] }
  let b : Document :=
    { name := .string "b", imports := [(.string "A", .string "a")], used := ["A"] }
  let x : Document := { name := .string "/urn:a" }
  let y : Document := { name := .string "urn:a" }
  let f : Document := { name := .string "f" }
  let q : Document := { name := .string "http://e.org/a?" }
  let schema : Schema := { documents := [a, b, x, y, f, q].map fun doc => (doc.name, doc) }
  let request : ExportRequest :=
    { concurrency := 3, roots := .list [a.name, a.name, x.name, y.name, f.name, q.name]
      start := .real (.finite false 1), finish := .real (.finite false 2) }
  have hschema : schema.IsTyped :=
    ⟨⟨by simp [schema], by decide⟩, by simp [schema, a, b, x, y, f, q],
      by simp [schema, a, b, x, y, f, q]⟩
  have hrequest : request.IsTyped .typeScript :=
    ⟨Or.inr ⟨["a", "a", "/urn:a", "urn:a", "f", "http://e.org/a?"], rfl⟩, rfl, by decide,
      ⟨_, rfl⟩, ⟨_, rfl⟩⟩
  have hbalanced : c.Balanced := by
    have hfresh : fresh.IsFresh := ⟨rfl, rfl, rfl, rfl⟩
    exact hfresh.balanced.open_ "old" rfl
  have huncalled : c.IsUncalled := by
    intro job hjob _ hoff
    obtain rfl := List.mem_singleton.1 hjob
    cases hoff
  have hlimited : ¬ c.backoff.IsPatient := by simp [c, fresh, Backoff.IsPatient, Cache.open_]
  have hbusy : ¬ c.Quiescent := by simp [c, fresh, Cache.Quiescent, Cache.open_]
  have hran : ((exportAll request schema).run c).1.toOption.map (fun r =>
      (r.written.map Json.text?, r.cached.map Json.text?, r.skipped.map Json.text?,
        r.failed.map fun entry => entry.1.text?)) =
      some ([some "a", some "/urn:a", some "urn:a", some "b"], [], [some "http://e.org/a?"],
        [some "f"]) := by decide +kernel
  obtain ⟨docs, hcollect, -, report, c', hrun, haccounts⟩ :=
    reported_once hschema hrequest hbalanced huncalled hlimited
  rw [hrun] at hran
  simp only [Except.toOption, Option.map_some, Option.some.injEq, Prod.mk.injEq,
    List.map_eq_nil_iff] at hran
  obtain ⟨hwritten, hcached, hskipped, hfailed⟩ := hran
  exact ⟨c, schema, request, docs, report, c', hschema, hrequest, hbalanced, huncalled, hlimited,
    hbusy, hcollect, hrun, hwritten, hcached, hskipped, hfailed, haccounts⟩

end Session
end SchemaArtifacts
