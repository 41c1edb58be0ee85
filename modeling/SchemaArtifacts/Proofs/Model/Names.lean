import Mathlib.Data.List.Nodup
import Mathlib.Data.List.Pairwise
import SchemaArtifacts.Model.Description

/-!
# Names of documents

A schema keeps its documents by name, and a name that is a text is a key of its own. So among the
documents that are collected for an export, each text names one at most.

## Main definitions

* `Schema.IsKeyed` — the documents of a schema are kept by their names

## Main results

* `Schema.IsKeyed.add`, `Schema.isKeyed_ofJson` — schemas are
* `Schema.IsKeyed.nodup_collect` — the texts that name collected documents differ
-/

namespace SchemaArtifacts

namespace Json

variable {α : Type} {a b key : Json} {x : α} {table : List (Json × α)}

/-- Values that are the same key are the same text, or both are none. -/
theorem text?_eq_of_sameKey (h : a.sameKey b) : a.text? = b.text? := by
  cases a <;> cases b <;> simp_all [sameKey, text?, toNumber?]

theorem eq_string_of_text? {text : String} (h : a.text? = some text) : a = .string text := by
  cases a with
  | string s => exact congrArg Json.string (Option.some.inj h)
  | _ => cases h

theorem eq_of_asKey (h : a.asKey = .ok b) : b = a := by
  unfold asKey at h
  split at h
  · exact (Except.ok.inj h).symm
  · cases h

/-- What a table has under a key stands beside the same key. -/
theorem exists_of_find? (h : find? key table = some x) :
    ∃ k, (k, x) ∈ table ∧ k.sameKey key := by
  induction table with
  | nil => cases h
  | cons entry rest ih =>
    obtain ⟨k, y⟩ := entry
    unfold find? at h
    split at h
    · rename_i hsame
      cases h
      exact ⟨k, List.mem_cons_self, hsame⟩
    · obtain ⟨k', hmem, hsame⟩ := ih h
      exact ⟨k', List.mem_cons_of_mem _ hmem, hsame⟩

/-- Setting a value changes no other entry. -/
theorem mem_insert {entry : Json × α} (h : entry ∈ insert key x table) :
    entry ∈ table ∨ entry.2 = x ∧ entry.1.text? = key.text? := by
  induction table with
  | nil =>
    obtain rfl := List.mem_singleton.1 h
    exact Or.inr ⟨rfl, rfl⟩
  | cons first rest ih =>
    obtain ⟨k, y⟩ := first
    unfold insert at h
    split at h
    · rename_i hsame
      rcases List.mem_cons.1 h with rfl | h
      · exact Or.inr ⟨rfl, text?_eq_of_sameKey hsame⟩
      · exact Or.inl (List.mem_cons_of_mem _ h)
    · rcases List.mem_cons.1 h with rfl | h
      · exact Or.inl List.mem_cons_self
      · exact (ih h).imp_left (List.mem_cons_of_mem _)

/-- Setting a value leaves the keys that are texts different. -/
theorem nodup_insert (h : (table.filterMap fun entry => entry.1.text?).Nodup) :
    ((insert key x table).filterMap fun entry => entry.1.text?).Nodup := by
  induction table with
  | nil =>
    cases htext : key.text? <;> simp [insert, htext]
  | cons first rest ih =>
    obtain ⟨k, y⟩ := first
    unfold insert
    split
    · exact h
    · rename_i hother
      cases htext : k.text? with
      | none =>
        simp only [List.filterMap_cons, htext] at h ⊢
        exact ih h
      | some text =>
        simp only [List.filterMap_cons, htext, List.nodup_cons] at h ⊢
        refine ⟨fun hmem => ?_, ih h.2⟩
        obtain ⟨entry, hentry, heq⟩ := List.mem_filterMap.1 hmem
        rcases mem_insert hentry with hentry | ⟨-, hkey⟩
        · exact h.1 (List.mem_filterMap.2 ⟨entry, hentry, heq⟩)
        · rw [eq_string_of_text? htext, eq_string_of_text? (hkey.symm.trans heq)] at hother
          simp at hother

/-- What a table has besides a new entry has other keys. -/
theorem not_sameKey_of_mem_insert (htexts : ∀ entry ∈ table, entry.1.text?.isSome)
    (hnodup : (table.filterMap fun entry => entry.1.text?).Nodup) {entry : Json × α}
    (h : entry ∈ insert key x table) :
    entry.2 = x ∧ entry.1.text? = key.text? ∨ entry ∈ table ∧ ¬ entry.1.sameKey key := by
  induction table with
  | nil =>
    obtain rfl := List.mem_singleton.1 h
    exact Or.inl ⟨rfl, rfl⟩
  | cons first rest ih =>
    obtain ⟨⟨text, htext⟩, hrest⟩ : (∃ text, first.1.text? = some text) ∧ _ :=
      ⟨Option.isSome_iff_exists.1 (htexts first List.mem_cons_self),
        fun entry hentry => htexts entry (List.mem_cons_of_mem _ hentry)⟩
    simp only [List.filterMap_cons, htext, List.nodup_cons] at hnodup
    unfold insert at h
    split at h
    · rename_i hsame
      obtain rfl | hmem := List.mem_cons.1 h
      · exact Or.inl ⟨rfl, text?_eq_of_sameKey hsame⟩
      · refine Or.inr ⟨List.mem_cons_of_mem _ hmem, fun hother => hnodup.1 ?_⟩
        refine List.mem_filterMap.2 ⟨entry, hmem, ?_⟩
        rw [text?_eq_of_sameKey hother, ← text?_eq_of_sameKey hsame, htext]
    · rename_i hsame
      obtain rfl | hmem := List.mem_cons.1 h
      · exact Or.inr ⟨List.mem_cons_self, hsame⟩
      · exact (ih hrest hnodup.2 hmem).imp_right fun h => ⟨List.mem_cons_of_mem _ h.1, h.2⟩

end Json

namespace Schema

variable {s t : Schema} {doc : Document}

/-- The documents of a schema are kept by their names, and each text is the key of one at most. -/
structure IsKeyed (s : Schema) : Prop where
  keys : ∀ entry ∈ s.documents, entry.1.text? = entry.2.name.text?
  nodup : (s.documents.filterMap fun entry => entry.1.text?).Nodup

theorem isKeyed_empty : IsKeyed {} := ⟨by simp, by simp⟩

theorem IsKeyed.add (h : s.IsKeyed) (hadd : s.add doc = .ok t) : t.IsKeyed := by
  obtain ⟨name, hname, ht⟩ := Result.bind_eq_ok.1 hadd
  obtain rfl := Except.ok.inj ht
  obtain rfl := Json.eq_of_asKey hname
  refine ⟨fun entry hentry => ?_, Json.nodup_insert h.nodup⟩
  rcases Json.mem_insert hentry with hentry | ⟨rfl, htext⟩
  · exact h.keys entry hentry
  · exact htext

/-- A schema from a description keeps its documents by their names. -/
theorem isKeyed_ofJson {a : Json} (h : Schema.ofJson a = .ok s) : s.IsKeyed := by
  have hfold : ∀ (parts : List Json) (s t : Schema), s.IsKeyed →
      parts.foldlM (fun s part => do s.add (← Document.ofJson part)) s = .ok t → t.IsKeyed := by
    intro parts
    induction parts with
    | nil =>
      intro s t hs ht
      obtain rfl := Except.ok.inj ht
      exact hs
    | cons part parts ih =>
      intro s t hs ht
      rw [List.foldlM_cons] at ht
      obtain ⟨s', hpart, ht⟩ := Result.bind_eq_ok.1 ht
      obtain ⟨doc, -, hadd⟩ := Result.bind_eq_ok.1 hpart
      exact ih s' t (hs.add hadd) ht
  obtain ⟨_, -, h⟩ := Result.bind_eq_ok.1 h
  obtain ⟨parts, -, h⟩ := Result.bind_eq_ok.1 h
  exact hfold parts _ s isKeyed_empty h

/-- The texts that name some documents. -/
def texts (docs : List Document) : List String := docs.filterMap fun d => d.name.text?

theorem IsKeyed.nodup_inNameOrder (h : s.IsKeyed) {docs : List Document}
    (hdocs : s.inNameOrder = .ok docs) : (texts docs).Nodup := by
  obtain ⟨sorted, hsort, hdocs⟩ := Result.bind_eq_ok.1 hdocs
  obtain rfl := Except.ok.inj hdocs
  have hperm := Json.perm_of_sortOn hsort
  have htexts : texts (sorted.map Prod.snd) = sorted.filterMap fun entry => entry.1.text? := by
    rw [texts, List.filterMap_map]
    exact List.filterMap_congr fun entry hentry => (h.keys entry (hperm.subset hentry)).symm
  rw [htexts]
  exact (hperm.filterMap _).nodup_iff.2 h.nodup

theorem isSeen_cons_eq_false {seen : List Json} {name : Json} {text : String}
    (h : isSeen (name :: seen) (.string text) = false) :
    name.sameKey (.string text) = false ∧ isSeen seen (.string text) = false := by
  simpa [isSeen] using h

/-- A visit takes in documents under names that were not seen before, and each under one name. -/
theorem IsKeyed.nodup_visit (h : s.IsKeyed) {bound : Nat} {seen queue : List Json}
    {docs : List Document} (hdocs : visit s bound seen queue = .ok docs) :
    (texts docs).Nodup ∧ ∀ text ∈ texts docs, isSeen seen (.string text) = false := by
  -- What is seen only grows, so whatever a later visit takes in was not seen now either.
  induction bound generalizing seen queue docs with
  | zero =>
    obtain rfl := Except.ok.inj hdocs
    simp [texts]
  | succ bound ih =>
    cases queue with
    | nil =>
      obtain rfl := Except.ok.inj hdocs
      simp [texts]
    | cons name queue =>
      obtain ⟨key, hkey, hvisit⟩ := Result.bind_eq_ok.1 hdocs
      obtain rfl := Json.eq_of_asKey hkey
      split at hvisit
      · exact ih hvisit
      · rename_i hnew
        cases hfound : Json.find? key s.documents with
        | none =>
          rw [hfound] at hvisit
          obtain ⟨hnodup, hunseen⟩ := ih hvisit
          exact ⟨hnodup, fun text htext => (isSeen_cons_eq_false (hunseen text htext)).2⟩
        | some doc =>
          rw [hfound] at hvisit
          obtain ⟨rest, hmore, hvisit⟩ := Result.bind_eq_ok.1 hvisit
          obtain rfl := Except.ok.inj hvisit
          obtain ⟨hnodup, hunseen⟩ := ih hmore
          have hunseen' := fun text htext => isSeen_cons_eq_false (hunseen text htext)
          obtain ⟨k, hentry, hsame⟩ := Json.exists_of_find? hfound
          have hname : doc.name.text? = key.text? :=
            (h.keys _ hentry).symm.trans (Json.text?_eq_of_sameKey hsame)
          cases htext : key.text? with
          | none =>
            simp only [texts, List.filterMap_cons, hname, htext]
            exact ⟨hnodup, fun text hmem => (hunseen' text hmem).2⟩
          | some text =>
            obtain rfl := Json.eq_string_of_text? htext
            simp only [texts, List.filterMap_cons, hname, htext, List.nodup_cons,
              List.forall_mem_cons]
            refine ⟨⟨fun hmem => ?_, hnodup⟩, by simpa using hnew,
              fun text hmem => (hunseen' text hmem).2⟩
            have hother := (hunseen' text hmem).1
            simp at hother

/-- The texts that name collected documents differ. -/
theorem IsKeyed.nodup_collect (h : s.IsKeyed) {roots : Json} {docs : List Document}
    (hdocs : s.collect roots = .ok docs) : (texts docs).Nodup := by
  unfold collect at hdocs
  split at hdocs
  · obtain ⟨names, -, hdocs⟩ := Result.bind_eq_ok.1 hdocs
    exact (h.nodup_visit hdocs).1
  · exact h.nodup_inNameOrder hdocs

/-- A text names one collected document at most. -/
theorem eq_of_name_eq {docs : List Document} (h : (texts docs).Nodup) {doc' : Document}
    (hdoc : doc ∈ docs) (hdoc' : doc' ∈ docs) {text : String} (hname : doc.name = .string text)
    (hname' : doc'.name = .string text) : doc' = doc := by
  rw [texts, List.Nodup, List.pairwise_filterMap] at h
  have : Std.Symm fun a b : Document =>
      ∀ x, a.name.text? = some x → ∀ y, b.name.text? = some y → x ≠ y :=
    ⟨fun _ _ hab x hx y hy heq => hab y hy x hx heq.symm⟩
  by_contra hne
  exact h.forall hdoc' hdoc hne text (by rw [hname']; rfl) text (by rw [hname]; rfl) rfl

end Schema
end SchemaArtifacts
