import SchemaArtifacts.Proofs.Model.Names

/-!
# Collecting documents

A schema whose names and links are texts has nothing that a look-up or a comparison would refuse. So
its documents are collected whatever the roots, and each of them is named by a text of its own.

## Main definitions

* `Json.AreRoots` — a list of names, or none
* `Schema.IsTyped` — the names of a schema are texts

## Main results

* `Schema.IsTyped.exists_collect` — documents are collected
* `Schema.IsTyped.names_collect` — their names are texts and differ
-/

namespace SchemaArtifacts

/-- A list of names to start from, or none. -/
def Json.AreRoots (roots : Json) : Prop :=
  roots = .null ∨ ∃ names : List String, roots = .list (names.map .string)

theorem Json.asKey_string (name : String) : (Json.string name).asKey = .ok (.string name) := rfl

/-- Values that are texts are the values of their texts. -/
theorem Json.map_string_texts {names : List Json} (h : ∀ name ∈ names, ∃ text, name = .string text) :
    (names.filterMap text?).map .string = names := by
  induction names with
  | nil => rfl
  | cons name names ih =>
    obtain ⟨⟨text, rfl⟩, hrest⟩ := List.forall_mem_cons.1 h
    have htext : text? (.string text) = some text := rfl
    rw [List.filterMap_cons_some htext, List.map_cons, ih hrest]

namespace Namespace

variable {n : Namespace}

/-- The imports in use are among the imports. -/
theorem exists_import_of_mem_links {full : Json} (h : full ∈ n.links) :
    ∃ entry ∈ n.imports, entry.2 = full := by
  obtain ⟨⟨name, full⟩, hforeign, rfl⟩ := List.mem_map.1 h
  obtain ⟨key, -, hfull⟩ := List.mem_filterMap.1 (List.mem_of_mem_filter hforeign)
  obtain ⟨full', hfound, heq⟩ := Option.map_eq_some_iff.1 hfull
  obtain ⟨k, hmem, -⟩ := Json.exists_of_find? hfound
  cases heq
  exact ⟨(k, full), hmem, rfl⟩

end Namespace

namespace Schema

variable {s : Schema} {docs : List Document}

/-- The documents of a schema are kept by their names, and these and what they import are texts. -/
structure IsTyped (s : Schema) : Prop where
  keyed : s.IsKeyed
  names : ∀ entry ∈ s.documents, ∃ name, entry.2.name = .string name
  links : ∀ entry ∈ s.documents, ∀ import_ ∈ entry.2.imports, ∃ full, import_.2 = .string full

theorem IsTyped.exists_inNameOrder (h : s.IsTyped) :
    ∃ docs, s.inNameOrder = .ok docs ∧ ∀ doc ∈ docs, ∃ entry ∈ s.documents, entry.2 = doc := by
  have hkeys : ∀ entry ∈ s.documents, entry.1.text?.isSome := by
    intro entry hentry
    obtain ⟨name, hname⟩ := h.names entry hentry
    rw [h.keyed.keys entry hentry, hname]
    rfl
  have hsorted := Json.sortOn_texts hkeys
  refine ⟨_, by rw [inNameOrder, hsorted]; rfl, fun doc hdoc => ?_⟩
  obtain ⟨entry, hentry, rfl⟩ := List.mem_map.1 hdoc
  exact ⟨entry, (Json.perm_of_sortOn hsorted).subset hentry, rfl⟩

/-- A visit to names that are texts meets names that are texts only. -/
theorem IsTyped.exists_visit (h : s.IsTyped) {bound : Nat} {seen queue : List Json}
    (hqueue : ∀ name ∈ queue, ∃ text, name = .string text) :
    ∃ docs, visit s bound seen queue = .ok docs ∧
      ∀ doc ∈ docs, ∃ entry ∈ s.documents, entry.2 = doc := by
  induction bound generalizing seen queue with
  | zero => exact ⟨[], rfl, by simp⟩
  | succ bound ih =>
    cases queue with
    | nil => exact ⟨[], rfl, by simp⟩
    | cons name queue =>
      obtain ⟨⟨text, rfl⟩, hrest⟩ := List.forall_mem_cons.1 hqueue
      simp only [visit, Json.asKey_string, bind, Except.bind]
      split
      · exact ih hrest
      · cases hfound : Json.find? (.string text) s.documents with
        | none => exact ih hrest
        | some doc =>
          obtain ⟨key, hentry, -⟩ := Json.exists_of_find? hfound
          have hlinks : ∀ link ∈ queue ++ doc.links, ∃ text, link = .string text := by
            refine List.forall_mem_append.2 ⟨hrest, fun link hlink => ?_⟩
            obtain ⟨import_, himport, rfl⟩ := Namespace.exists_import_of_mem_links hlink
            exact h.links _ hentry import_ himport
          obtain ⟨docs, hvisit, hdocs⟩ := @ih (.string text :: seen) _ hlinks
          refine ⟨doc :: docs, by simp only [hvisit]; rfl, ?_⟩
          exact List.forall_mem_cons.2 ⟨⟨(key, doc), hentry, rfl⟩, hdocs⟩

/-- Documents are collected, whatever the roots. -/
theorem IsTyped.exists_collect (h : s.IsTyped) {roots : Json} (hroots : roots.AreRoots) :
    ∃ docs, s.collect roots = .ok docs ∧ ∀ doc ∈ docs, ∃ entry ∈ s.documents, entry.2 = doc := by
  unfold collect
  split
  · obtain rfl | ⟨names, rfl⟩ := hroots
    · rename_i hnull
      cases hnull
    · rw [Json.elements_list]
      refine h.exists_visit fun name hname => ?_
      obtain ⟨text, -, rfl⟩ := List.mem_map.1 hname
      exact ⟨text, rfl⟩
  · exact h.exists_inNameOrder

/-- Documents that are named by different texts have different names. -/
theorem nodup_names (hnodup : (texts docs).Nodup)
    (hnames : ∀ doc ∈ docs, ∃ name, doc.name = .string name) :
    (docs.map fun d => d.name).Nodup := by
  rw [← Json.map_string_texts (List.forall_mem_map.2 hnames), List.filterMap_map]
  exact hnodup.map fun _ _ => Json.string.inj

/-- Collected documents are named by texts, and their names differ. -/
theorem IsTyped.names_collect (h : s.IsTyped) {roots : Json} (hroots : roots.AreRoots)
    (hdocs : s.collect roots = .ok docs) :
    (∀ doc ∈ docs, ∃ name, doc.name = .string name) ∧ (docs.map fun d => d.name).Nodup := by
  obtain ⟨docs', hcollect, hentries⟩ := h.exists_collect hroots
  cases hdocs.symm.trans hcollect
  have hnames : ∀ doc ∈ docs, ∃ name, doc.name = .string name := by
    intro doc hdoc
    obtain ⟨entry, hentry, rfl⟩ := hentries doc hdoc
    exact h.names entry hentry
  exact ⟨hnames, nodup_names (h.keyed.nodup_collect hdocs) hnames⟩

end Schema
end SchemaArtifacts
