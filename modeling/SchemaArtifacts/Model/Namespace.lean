import SchemaArtifacts.Json.Shape
import SchemaArtifacts.Model.TypeRef

/-!
# Namespaces

A namespace has a table of imports, from a short alias to the full name of another namespace, and
remembers which aliases its declarations refer to.

## Main definitions

* `Namespace` — a name, its imports and the aliases in use, which are in the table
* `Namespace.mark` — an alias is in use
* `Namespace.usedImports` — the imports in use, by alias
* `Namespace.links` — the full names that the imports in use lead to

## Main results

* `Namespace.mem_used_mark_iff` — what marking adds
* `Namespace.nodup_used_mark` — no alias is marked twice
* `Namespace.fst_usedImports` — every alias in use has its import
-/

namespace SchemaArtifacts

/-- A named group of declarations. -/
structure Namespace where
  name : Json
  /-- From alias to full name. -/
  imports : List (Json × Json) := []
  /-- The aliases in use, in the order in which they were first marked. -/
  used : List String := []
  /-- What is in use is in the table. -/
  known : ∀ alias_ ∈ used, (Json.find? (.string alias_) imports).isSome := by
    first | exact List.forall_mem_nil _ | decide

namespace Namespace

/-- The alias of the namespace of built-in types, which has no document. -/
def builtinAlias : String := "Primitive"

/-- The full name behind an alias. -/
def fullName? (n : Namespace) (alias_ : String) : Option Json :=
  Json.find? (.string alias_) n.imports

/-- Marks an alias as used, if it is one. -/
def mark (n : Namespace) (alias_ : String) : Namespace :=
  if h : (n.fullName? alias_).isSome ∧ alias_ ∉ n.used then
    { n with
      used := n.used ++ [alias_]
      known := fun other ho => (List.mem_append.1 ho).elim (n.known other) fun hlast =>
        List.mem_singleton.1 hlast ▸ h.1 }
  else n

/-- Marks the alias of a type reference. -/
def markRef (n : Namespace) (ref : String) : Namespace :=
  (TypeRef.ofString ref).alias_.elim n n.mark

/-- The imports in use in ascending order of their aliases. -/
def usedImports (n : Namespace) : List (String × Json) :=
  (n.used.mergeSort fun a b => a ≤ b).filterMap fun a => (n.fullName? a).map fun full => (a, full)

/-- The imports in use that lead to another document. -/
def foreignImports (n : Namespace) : List (String × Json) :=
  n.usedImports.filter fun entry => entry.1 != builtinAlias

/-- The full names that the imports in use lead to. -/
def links (n : Namespace) : List Json := n.foreignImports.map Prod.snd

@[simp] theorem name_mark (n : Namespace) (a : String) : (n.mark a).name = n.name := by
  unfold mark; split <;> rfl

@[simp] theorem imports_mark (n : Namespace) (a : String) : (n.mark a).imports = n.imports := by
  unfold mark; split <;> rfl

theorem mem_used_mark_iff {n : Namespace} {a b : String} :
    b ∈ (n.mark a).used ↔ b ∈ n.used ∨ b = a ∧ (n.fullName? a).isSome := by
  unfold mark
  split
  · rename_i h
    simp [h.1]
  · rename_i h
    constructor
    · exact Or.inl
    · rintro (hb | ⟨rfl, ha⟩)
      · exact hb
      · exact Decidable.not_not.1 fun hnot => h ⟨ha, hnot⟩

theorem nodup_used_mark {n : Namespace} (h : n.used.Nodup) (a : String) :
    (n.mark a).used.Nodup := by
  unfold mark
  split
  · rename_i hnew
    refine List.nodup_append.2 ⟨h, by simp, ?_⟩
    rintro x hx y hy rfl
    rw [List.mem_singleton] at hy
    exact hnew.2 (hy ▸ hx)
  · exact h

/-- Every alias in use has its import. -/
theorem fst_usedImports (n : Namespace) :
    n.usedImports.map Prod.fst = n.used.mergeSort fun a b => a ≤ b := by
  have hall : ∀ alias_ ∈ n.used.mergeSort fun a b => a ≤ b, (n.fullName? alias_).isSome :=
    fun alias_ h => n.known alias_ (List.mem_mergeSort.1 h)
  unfold usedImports
  generalize n.used.mergeSort (fun a b => a ≤ b) = aliases at hall ⊢
  induction aliases with
  | nil => rfl
  | cons alias_ rest ih =>
    obtain ⟨hfirst, hrest⟩ := List.forall_mem_cons.1 hall
    obtain ⟨full, hfull⟩ := Option.isSome_iff_exists.1 hfirst
    rw [List.filterMap_cons, hfull, Option.map_some, List.map_cons, ih hrest]

end Namespace

end SchemaArtifacts
