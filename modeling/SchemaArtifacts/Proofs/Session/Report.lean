import SchemaArtifacts.Proofs.Session.Course

/-!
# What a report says

A delivery that has ended is noted once, and it keeps its document and its result through whatever
comes later. So the report of a session lists a name with a status exactly if a delivery of a
document of that name has ended with it, and names a failure exactly if such a delivery has failed.

## Main definitions

* `Report.listed` — the names that a report lists with a status
* `Session.Ends` — a delivery of a document has ended with a result
* `Session.IsNoted` — the deliveries that have ended are those that are noted

## Main results

* `Session.exists_delivery_play` — what a move does to one delivery
* `Session.isNoted_playAll` — ends stay noted, whatever the course of moves
* `Session.mem_listed_report_iff`, `Session.mem_failed_report_iff` — what a report lists
* `Session.Ends.mem_listed_iff`, `Session.Ends.mem_failed_iff` — where it lists the name of a document
  among documents of different names
-/

namespace SchemaArtifacts

/-- The status that a report shows: an export without a document shows as skipped. -/
def ExportStatus.shown : ExportStatus → ExportStatus
  | .noDocument => .skipped
  | status => status

theorem Json.sameKey_string_iff {key : Json} {text : String} :
    key.sameKey (.string text) ↔ key = .string text := by
  cases key <;> simp [sameKey, toNumber?]

/-- Setting a value adds its key, unless the same key is there: a text is there only as itself. -/
theorem Json.string_mem_keys_insert {α : Type} {text : String} {key : Json} {a : α}
    {table : List (Json × α)} : .string text ∈ (insert key a table).map Prod.fst ↔
      .string text ∈ table.map Prod.fst ∨ key = .string text := by
  induction table with
  | nil => simp [insert, eq_comm]
  | cons entry rest ih =>
    obtain ⟨k, b⟩ := entry
    unfold insert
    split
    · rename_i hsame
      refine ⟨Or.inl, ?_⟩
      rintro (hmem | rfl)
      · exact hmem
      · rw [sameKey_string_iff.1 hsame]
        exact List.mem_cons_self
    · simp only [List.map_cons, List.mem_cons, ih, or_assoc]

namespace Report

variable {r : Report} {name other : Json} {status shown : ExportStatus}

/-- The names that a report lists with a status. -/
def listed (r : Report) : ExportStatus → List Json
  | .written => r.written
  | .cached => r.cached
  | .skipped | .noDocument => r.skipped

theorem mem_listed_record : name ∈ (r.record other status).listed shown ↔
    name ∈ r.listed shown ∨ other = name ∧ status.shown = shown.shown := by
  cases status <;> cases shown <;> simp [record, listed, ExportStatus.shown, eq_comm]

@[simp] theorem listed_fail (message : String) :
    (r.fail name message).listed status = r.listed status := by
  cases status <;> rfl

@[simp] theorem failed_record : (r.record name status).failed = r.failed := by
  cases status <;> rfl

end Report

namespace Session

variable {s : Session} {i : Nat} {d : Delivery} {doc : Document}
  {result : Except Failure ExportStatus} {name : Json} {status : ExportStatus}

/-- What a move does to one delivery: nothing, or its next step, or it is abandoned. -/
theorem exists_delivery_play (m : Move) (hd : s.deliveries[i]? = some d) :
    ∃ d', (s.play m).deliveries[i]? = some d' ∧
      (d' = d ∨ d' = (d.step s.cache).2 ∨ m = .abandon i ∧ d' = d.abandon) := by
  have hplays := s.plays_play m
  generalize s.play m = t at hplays ⊢
  cases hplays with
  | delivers m j e there turn =>
    rw [stepDelivery_of_getElem? there, putDelivery]
    obtain ⟨d', hd', ⟨rfl, rfl⟩ | ⟨-, rfl⟩⟩ := exists_getElem?_set hd j (e.step s.cache).2
    · cases hd.symm.trans there
      exact ⟨_, hd', Or.inr (Or.inl rfl)⟩
    · exact ⟨_, hd', Or.inl rfl⟩
  | abandons j e there =>
    rw [putDelivery]
    obtain ⟨d', hd', ⟨rfl, rfl⟩ | ⟨-, rfl⟩⟩ := exists_getElem?_set hd j e.abandon
    · cases hd.symm.trans there
      exact ⟨_, hd', Or.inr (Or.inr ⟨rfl, rfl⟩)⟩
    · exact ⟨_, hd', Or.inl rfl⟩
  | _ => exact ⟨d, hd, Or.inl rfl⟩

/-- A delivery goes on to bring its document, whatever the course of moves. -/
theorem exists_brings_playAll {format : Format} (hd : s.deliveries[i]? = some d)
    (h : d.Brings s.cache.root doc format) (moves : List Move) :
    ∃ d', (s.playAll moves).deliveries[i]? = some d' ∧ d'.Brings s.cache.root doc format := by
  induction moves generalizing s d with
  | nil => exact ⟨d, hd, h⟩
  | cons m moves ih =>
    have hroot := (operation_play s m).sameWorld.root
    obtain ⟨d', hd', hcases⟩ := exists_delivery_play m hd
    rw [playAll_cons, ← hroot]
    refine ih hd' ?_
    rw [hroot]
    rcases hcases with rfl | rfl | ⟨-, rfl⟩
    · exact h
    · obtain ⟨e, hstep, hbrings⟩ := Delivery.step_of_brings h
      rwa [hstep]
    · unfold Delivery.abandon
      split
      · exact h
      · exact ⟨h.standsFor, h.format⟩

/-- A delivery of a document has ended with a result. -/
def Ends (s : Session) (i : Nat) (doc : Document) (result : Except Failure ExportStatus) : Prop :=
  ∃ d, s.deliveries[i]? = some d ∧ d.exporter.doc = some doc ∧ d.result? = some result

/-- In a session of documents, the delivery at a place is one of the document there. -/
theorem Ends.getElem?_eq_some {c : Cache} {format : Format} {limit : Nat} {docs : List Document}
    {moves : List Move} (h : ((ofDocuments c format limit docs).playAll moves).Ends i doc result) :
    docs[i]? = some doc := by
  obtain ⟨d, hd, hdoc, -⟩ := h
  have hlength : ∀ (s : Session) (moves : List Move),
      (s.playAll moves).deliveries.length = s.deliveries.length := by
    intro s moves
    induction moves generalizing s with
    | nil => rfl
    | cons m moves ih => rw [playAll_cons, ih, length_deliveries_play]
  have hi : i < docs.length := by
    have hlt := (List.getElem?_eq_some_iff.1 hd).1
    simpa [hlength, ofDocuments] using hlt
  have hbegan : (ofDocuments c format limit docs).deliveries[i]? =
      some { exporter := { doc := some docs[i], format } } := by
    simp [ofDocuments, hi]
  have hbrings : Delivery.Brings { exporter := { doc := some docs[i], format } } c.root docs[i]
      format := ⟨⟨rfl, fun _ hdir => by cases hdir⟩, rfl⟩
  obtain ⟨d', hd', hbrings⟩ := exists_brings_playAll hbegan hbrings moves
  cases hd.symm.trans hd'
  rw [List.getElem?_eq_getElem hi, ← hdoc, hbrings.standsFor.doc]

/-! ## Ends are noted -/

/-- The deliveries that have ended are those that are noted. -/
def IsNoted (s : Session) : Prop :=
  ∀ i, i ∈ s.ended ↔ ∃ d result, s.deliveries[i]? = some d ∧ d.result? = some result

theorem IsNoted.putDelivery (h : s.IsNoted) (hd : s.deliveries[i]? = some d) {d' : Delivery}
    (hkept : ∀ result, d.result? = some result → d'.result? = some result) :
    (s.putDelivery i d').IsNoted := by
  have hi : i < s.deliveries.length := (List.getElem?_eq_some_iff.1 hd).1
  have hended : ∀ j, j ∈ (s.putDelivery i d').ended ↔ j ∈ s.ended ∨ d'.result?.isSome ∧ j = i := by
    intro j
    unfold Session.putDelivery
    by_cases hresult : d'.result?.isSome
    · by_cases hmem : s.ended.contains i
      · have hmem' : i ∈ s.ended := by simpa using hmem
        simp only [hresult, hmem, Bool.not_true, Bool.and_false, Bool.false_eq_true, if_false,
          true_and]
        exact ⟨Or.inl, fun hj => hj.elim id fun heq => heq ▸ hmem'⟩
      · have hmem' : i ∉ s.ended := by simpa using hmem
        simp [hresult, hmem']
    · simp [hresult]
  intro j
  rw [hended, h j]
  unfold Session.putDelivery
  by_cases hij : i = j
  · subst hij
    simp only [List.getElem?_set_self hi, Option.isSome_iff_exists, and_true]
    constructor
    · rintro (⟨e, result, he, hresult⟩ | ⟨result, hresult⟩)
      · cases hd.symm.trans he
        exact ⟨d', result, rfl, hkept result hresult⟩
      · exact ⟨d', result, rfl, hresult⟩
    · rintro ⟨e, result, he, hresult⟩
      cases he
      exact Or.inr ⟨result, hresult⟩
  · simp only [List.getElem?_set_ne hij, Ne.symm hij, and_false, or_false]

theorem IsNoted.stepDelivery (h : s.IsNoted) (i : Nat) : (s.stepDelivery i).IsNoted := by
  cases hd : s.deliveries[i]? with
  | none =>
    simp only [Session.stepDelivery, hd]
    exact h
  | some d =>
    rw [stepDelivery_of_getElem? hd]
    have hcache : IsNoted { s with cache := (d.step s.cache).1 } := h
    refine hcache.putDelivery hd fun result hresult => ?_
    rw [Delivery.step_of_ended (Delivery.stage_of_result? hresult)]
    exact hresult

/-- Ends stay noted. -/
theorem IsNoted.play (h : s.IsNoted) (m : Move) : (s.play m).IsNoted := by
  have hplays := s.plays_play m
  generalize s.play m = t at hplays ⊢
  cases hplays with
  | delivers _ i => exact h.stepDelivery i
  | abandons i d there =>
    refine h.putDelivery there fun result hresult => ?_
    rwa [Delivery.abandon_of_ended (Delivery.stage_of_result? hresult)]
  | _ => exact h

theorem isNoted_playAll (h : s.IsNoted) (moves : List Move) : (s.playAll moves).IsNoted := by
  induction moves generalizing s with
  | nil => exact h
  | cons m moves ih => exact ih (h.play m)

theorem isNoted_ofDocuments (c : Cache) (format : Format) (limit : Nat) (docs : List Document) :
    (ofDocuments c format limit docs).IsNoted := by
  intro i
  refine iff_of_false (by simp [ofDocuments]) ?_
  rintro ⟨d, result, hd, hresult⟩
  obtain ⟨doc, -, rfl⟩ := List.mem_map.1 (List.mem_of_getElem? hd)
  cases hresult

/-! ## What is listed -/

/-- Noting a delivery lists the name of its document as its result says. -/
theorem note_eq (s : Session) (r : Report) (i : Nat) :
    (∃ doc status, s.Ends i doc (.ok status) ∧ s.note r i = r.record doc.name status) ∨
      (∃ doc e, s.Ends i doc (.error e) ∧ s.note r i = r.fail doc.name e.message) ∨
      (∀ doc result, ¬ s.Ends i doc result) ∧ s.note r i = r := by
  unfold note
  cases hd : s.deliveries[i]? with
  | none => exact Or.inr (Or.inr ⟨fun doc result ⟨d, hd', _⟩ => by simp [hd] at hd', rfl⟩)
  | some d =>
    cases hdoc : d.exporter.doc with
    | none =>
      refine Or.inr (Or.inr ⟨?_, by simp only [hdoc]⟩)
      rintro doc result ⟨d', hd', hdoc', -⟩
      cases hd.symm.trans hd'
      rw [hdoc] at hdoc'
      cases hdoc'
    | some doc =>
      cases hresult : d.result? with
      | none =>
        refine Or.inr (Or.inr ⟨?_, by simp only [hdoc, hresult]⟩)
        rintro doc result ⟨d', hd', -, hresult'⟩
        cases hd.symm.trans hd'
        rw [hresult] at hresult'
        cases hresult'
      | some result =>
        cases result with
        | ok status =>
          exact Or.inl ⟨doc, status, ⟨d, hd, hdoc, hresult⟩, by simp only [hdoc, hresult]⟩
        | error e =>
          exact Or.inr (Or.inl ⟨doc, e, ⟨d, hd, hdoc, hresult⟩, by simp only [hdoc, hresult]⟩)

theorem Ends.unique {doc' : Document} {result' : Except Failure ExportStatus}
    (h : s.Ends i doc result) (h' : s.Ends i doc' result') : doc' = doc ∧ result' = result := by
  obtain ⟨d, hd, hdoc, hresult⟩ := h
  obtain ⟨d', hd', hdoc', hresult'⟩ := h'
  cases hd.symm.trans hd'
  exact ⟨Option.some.inj (hdoc'.symm.trans hdoc), Option.some.inj (hresult'.symm.trans hresult)⟩

theorem mem_listed_note (r : Report) : name ∈ (s.note r i).listed status ↔ name ∈ r.listed status ∨
    ∃ doc status', s.Ends i doc (.ok status') ∧ doc.name = name ∧ status'.shown = status.shown := by
  rcases s.note_eq r i with ⟨doc, status', hends, heq⟩ | ⟨doc, e, hends, heq⟩ | ⟨hnone, heq⟩
  · rw [heq, Report.mem_listed_record]
    refine or_congr_right ⟨fun h => ⟨doc, status', hends, h⟩, ?_⟩
    rintro ⟨doc', status'', hends', h⟩
    obtain ⟨rfl, heq'⟩ := hends.unique hends'
    cases heq'
    exact h
  · rw [heq, Report.listed_fail]
    refine (or_iff_left ?_).symm
    rintro ⟨doc', status', hends', -⟩
    obtain ⟨-, heq'⟩ := hends.unique hends'
    cases heq'
  · rw [heq]
    exact (or_iff_left fun ⟨doc, status', hends, _⟩ => hnone doc _ hends).symm

theorem mem_failed_note (r : Report) {text : String} :
    .string text ∈ (s.note r i).failed.map Prod.fst ↔ .string text ∈ r.failed.map Prod.fst ∨
      ∃ doc e, s.Ends i doc (.error e) ∧ doc.name = .string text := by
  rcases s.note_eq r i with ⟨doc, status, hends, heq⟩ | ⟨doc, e, hends, heq⟩ | ⟨hnone, heq⟩
  · rw [heq, Report.failed_record]
    refine (or_iff_left ?_).symm
    rintro ⟨doc', e, hends', -⟩
    obtain ⟨-, heq'⟩ := hends.unique hends'
    cases heq'
  · rw [heq, Report.fail, Json.string_mem_keys_insert]
    refine or_congr_right ⟨fun h => ⟨doc, e, hends, h⟩, ?_⟩
    rintro ⟨doc', e', hends', h⟩
    obtain ⟨rfl, -⟩ := hends.unique hends'
    exact h
  · rw [heq]
    exact (or_iff_left fun ⟨doc, e, hends, _⟩ => hnone doc _ hends).symm

/-- What each note may add is in the end what some note has added. -/
private theorem foldl_note_iff {p : Report → Prop} {q : Nat → Prop}
    (h : ∀ r i, p (s.note r i) ↔ p r ∨ q i) (r : Report) (noted : List Nat) :
    p (noted.foldl s.note r) ↔ p r ∨ ∃ i ∈ noted, q i := by
  induction noted generalizing r with
  | nil => simp
  | cons i noted ih =>
    rw [List.foldl_cons, ih, h, or_assoc]
    simp only [List.mem_cons, exists_eq_or_imp]

/-- A name is listed with a status exactly if a delivery of a document of this name has ended with
it. -/
theorem mem_listed_report_iff (h : s.IsNoted) : name ∈ s.report.listed status ↔
    ∃ i doc status', s.Ends i doc (.ok status') ∧ doc.name = name ∧
      status'.shown = status.shown := by
  have hempty : name ∉ ({} : Report).listed status := by
    cases status <;> exact List.not_mem_nil
  rw [report, foldl_note_iff (p := fun r => name ∈ r.listed status) (fun r i => mem_listed_note r),
    or_iff_right hempty]
  refine exists_congr fun i => and_iff_right_of_imp ?_
  rintro ⟨doc, status', ⟨d, hd, -, hresult⟩, -⟩
  exact (h i).2 ⟨d, _, hd, hresult⟩

/-- A text is named among the failures exactly if a delivery of a document of this name has
failed. -/
theorem mem_failed_report_iff (h : s.IsNoted) {text : String} :
    .string text ∈ s.report.failed.map Prod.fst ↔
      ∃ i doc e, s.Ends i doc (.error e) ∧ doc.name = .string text := by
  have hempty : Json.string text ∉ ({} : Report).failed.map Prod.fst := List.not_mem_nil
  rw [report, foldl_note_iff (p := fun r => .string text ∈ r.failed.map Prod.fst)
    (fun r i => mem_failed_note r), or_iff_right hempty]
  refine exists_congr fun i => and_iff_right_of_imp ?_
  rintro ⟨doc, e, ⟨d, hd, -, hresult⟩, -⟩
  exact (h i).2 ⟨d, _, hd, hresult⟩

/-! ## Documents of different names -/

section Documents

variable {c : Cache} {format : Format} {limit : Nat} {docs : List Document} {moves : List Move}

/-- Among documents of different names, a name tells the delivery and how it has ended. -/
theorem Ends.of_name_eq (hnames : (docs.map fun d => d.name).Nodup)
    (h : ((ofDocuments c format limit docs).playAll moves).Ends i doc result) {j : Nat}
    {doc' : Document} {result' : Except Failure ExportStatus}
    (h' : ((ofDocuments c format limit docs).playAll moves).Ends j doc' result')
    (hname : doc'.name = doc.name) : j = i ∧ doc' = doc ∧ result' = result := by
  have hdoc := h.getElem?_eq_some
  have hdoc' := h'.getElem?_eq_some
  have hlt : j < (docs.map fun d => d.name).length := by
    simpa using (List.getElem?_eq_some_iff.1 hdoc').1
  obtain rfl : j = i := by
    refine (List.getElem?_inj hlt hnames).1 ?_
    rw [List.getElem?_map, List.getElem?_map, hdoc, hdoc', Option.map_some, Option.map_some, hname]
  exact ⟨rfl, h.unique h'⟩

/-- The name of a document whose export has ended is listed with the status of its end. -/
theorem Ends.mem_listed_iff (hnames : (docs.map fun d => d.name).Nodup)
    (h : ((ofDocuments c format limit docs).playAll moves).Ends i doc result) :
    doc.name ∈ ((ofDocuments c format limit docs).playAll moves).report.listed status ↔
      ∃ status', result = .ok status' ∧ status'.shown = status.shown := by
  rw [mem_listed_report_iff (isNoted_playAll (isNoted_ofDocuments c format limit docs) moves)]
  constructor
  · rintro ⟨j, doc', status', hends, hname, hshown⟩
    obtain ⟨-, -, rfl⟩ := h.of_name_eq hnames hends hname
    exact ⟨status', rfl, hshown⟩
  · rintro ⟨status', rfl, hshown⟩
    exact ⟨i, doc, status', h, rfl, hshown⟩

/-- It is named among the failures if its export has failed. -/
theorem Ends.mem_failed_iff (hnames : (docs.map fun d => d.name).Nodup)
    (h : ((ofDocuments c format limit docs).playAll moves).Ends i doc result) {text : String}
    (htext : doc.name = .string text) :
    doc.name ∈ ((ofDocuments c format limit docs).playAll moves).report.failed.map Prod.fst ↔
      ∃ e, result = .error e := by
  rw [htext,
    mem_failed_report_iff (isNoted_playAll (isNoted_ofDocuments c format limit docs) moves)]
  constructor
  · rintro ⟨j, doc', e, hends, hname⟩
    obtain ⟨-, -, rfl⟩ := h.of_name_eq hnames hends (hname.trans htext.symm)
    exact ⟨e, rfl⟩
  · rintro ⟨e, rfl⟩
    exact ⟨i, doc, e, h, htext⟩

end Documents

end Session
end SchemaArtifacts
