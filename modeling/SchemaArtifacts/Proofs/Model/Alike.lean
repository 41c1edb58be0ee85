import Mathlib.Data.List.Forall2
import SchemaArtifacts.Proofs.Model.BreadthFirst

/-!
# Schemas that differ in order only

A table keeps its entries in the order in which they were set, and so do imports, the aliases in use
and the documents of a schema. None of this order is seen from outside: entries are looked up by
keys that differ, and what is walked through is sorted before.

## Main definitions

* `Namespace.Alike`, `Document.Alike`, `Schema.Alike` — namespaces, documents and schemas that
  differ in such orders only

## Main results

* `Json.find?_of_perm` — an entry is found wherever it stands
* `Namespace.Alike.usedImports` — the imports in use are the same
* `Document.Alike.markAll` — documents stay alike when their references are marked
* `Schema.Alike.collect` — documents of the same names are collected in the same order
-/

namespace SchemaArtifacts

namespace Json

variable {α : Type} {table table' : List (Json × α)}

/-- No key stands for two entries of a table. -/
def HasKeysApart (table : List (Json × α)) : Prop :=
  table.Pairwise fun e e' => ∀ key, ¬ (e.1.sameKey key ∧ e'.1.sameKey key)

/-- Different texts stand for different entries. -/
theorem hasKeysApart_of_texts (htexts : ∀ e ∈ table, e.1.text?.isSome)
    (hnodup : (table.filterMap fun e => e.1.text?).Nodup) : HasKeysApart table := by
  rw [List.Nodup, List.pairwise_filterMap] at hnodup
  refine hnodup.imp_of_mem fun {e e'} he _ hne key hkey => ?_
  obtain ⟨text, htext⟩ := Option.isSome_iff_exists.1 (htexts e he)
  refine hne text htext text ?_ rfl
  rw [text?_eq_of_sameKey hkey.2, ← text?_eq_of_sameKey hkey.1, htext]

/-- An entry is found wherever it stands. -/
theorem find?_of_perm (h : table.Perm table') (hkeys : HasKeysApart table) (key : Json) :
    find? key table' = find? key table := by
  induction h with
  | nil => rfl
  | cons entry _ ih => rw [find?, find?, ih (List.pairwise_cons.1 hkeys).2]
  | swap entry entry' rest =>
    have hapart := (List.pairwise_cons.1 hkeys).1 entry List.mem_cons_self key
    simp only [find?]
    split <;> split <;> simp_all
  | trans hperm _ ih ih' =>
    have hsymm : ∀ {e e' : Json × α}, (∀ key, ¬ (e.1.sameKey key ∧ e'.1.sameKey key)) →
        ∀ key, ¬ (e'.1.sameKey key ∧ e.1.sameKey key) :=
      fun hapart key hkey => hapart key hkey.symm
    rw [ih' ((hperm.pairwise_iff hsymm).1 hkeys), ih hkeys]

end Json

/-! ## Namespaces -/

/-- Sorted texts ascend. -/
theorem Namespace.pairwise_mergeSort_le (aliases : List String) :
    (aliases.mergeSort fun a b => a ≤ b).Pairwise (· ≤ ·) := by
  have hpairs : (aliases.mergeSort fun a b => a ≤ b).Pairwise fun a b => decide (a ≤ b) := by
    refine List.pairwise_mergeSort (fun a b c hab hbc => ?_) (fun a b => ?_) aliases
    · rw [decide_eq_true_eq] at hab hbc ⊢
      exact String.le_trans hab hbc
    · simpa using String.le_total a b
  simpa using hpairs

/-- Two namespaces differ at most in the order of their imports and of the aliases in use. -/
structure Namespace.Alike (n n' : Namespace) : Prop where
  name : n'.name = n.name
  fullName? : ∀ alias_, n'.fullName? alias_ = n.fullName? alias_
  used : n'.used.Perm n.used

namespace Namespace.Alike

variable {n n' : Namespace}

theorem mark (h : n.Alike n') (alias_ : String) : (n.mark alias_).Alike (n'.mark alias_) := by
  refine ⟨by rw [name_mark, name_mark, h.name], fun other => ?_, ?_⟩
  · rw [Namespace.fullName?, Namespace.fullName?, imports_mark, imports_mark]
    exact h.fullName? other
  · have hsame : ((n'.fullName? alias_).isSome ∧ alias_ ∉ n'.used) ↔
        ((n.fullName? alias_).isSome ∧ alias_ ∉ n.used) := by
      rw [h.fullName?, h.used.mem_iff]
    unfold Namespace.mark
    by_cases hnew : (n.fullName? alias_).isSome ∧ alias_ ∉ n.used
    · rw [dif_pos hnew, dif_pos (hsame.2 hnew)]
      exact h.used.append_right _
    · rw [dif_neg hnew, dif_neg (hsame.not.2 hnew)]
      exact h.used

theorem markRef (h : n.Alike n') (ref : String) : (n.markRef ref).Alike (n'.markRef ref) := by
  unfold Namespace.markRef
  cases (TypeRef.ofString ref).alias_ with
  | none => exact h
  | some alias_ => exact h.mark alias_

/-- The imports in use are sorted, so they do not tell in which order they were marked. -/
theorem usedImports (h : n.Alike n') : n'.usedImports = n.usedImports := by
  have hsame : (n'.used.mergeSort fun a b => a ≤ b) = n.used.mergeSort fun a b => a ≤ b := by
    refine List.Perm.eq_of_pairwise (fun _ _ _ _ => String.le_antisymm)
      (pairwise_mergeSort_le _) (pairwise_mergeSort_le _) ?_
    exact (List.mergeSort_perm _ _).trans (h.used.trans (List.mergeSort_perm _ _).symm)
  unfold Namespace.usedImports
  rw [hsame]
  simp only [h.fullName?]

theorem foreignImports (h : n.Alike n') : n'.foreignImports = n.foreignImports := by
  rw [Namespace.foreignImports, h.usedImports, Namespace.foreignImports]

theorem links (h : n.Alike n') : n'.links = n.links := by
  rw [Namespace.links, h.foreignImports, Namespace.links]

end Namespace.Alike

/-! ## Documents -/

/-- Two documents have the same declarations and differ at most in the order of their imports and of
the aliases in use. -/
structure Document.Alike (d d' : Document) : Prop extends
    d.toNamespace.Alike d'.toNamespace where
  declarations : d'.declarations = d.declarations

theorem Document.Alike.markAll {d d' : Document} (h : d.Alike d') : d.markAll.Alike d'.markAll := by
  have hall : ∀ (refs : List String) {n n' : Namespace}, n.Alike n' →
      (refs.foldl Namespace.markRef n).Alike (refs.foldl Namespace.markRef n') := by
    intro refs
    induction refs with
    | nil => exact fun h => h
    | cons ref refs ih => exact fun h => ih (h.markRef ref)
  refine ⟨?_, h.declarations⟩
  unfold Document.markAll
  rw [h.declarations]
  exact hall _ h.toAlike

/-! ## Schemas -/

/-- Two schemas have alike documents under the same names, in any order. -/
def Schema.Alike (s s' : Schema) : Prop :=
  ∃ table, List.Forall₂ (fun e e' => e'.1 = e.1 ∧ e.2.Alike e'.2) s.documents table ∧
    table.Perm s'.documents

namespace Schema

variable {s s' : Schema} {seen queue : List Json}

theorem IsTyped.isSome_text? (h : s.IsTyped) : ∀ entry ∈ s.documents, entry.1.text?.isSome := by
  intro entry hentry
  obtain ⟨name, hname⟩ := h.names entry hentry
  rw [h.keyed.keys entry hentry, hname]
  rfl

/-- What stands under a key in one of the schemas is alike in the other. -/
theorem Alike.find? (h : s.Alike s') (hs : s'.IsTyped) (key : Json) :
    Option.Rel Document.Alike (Json.find? key s.documents) (Json.find? key s'.documents) := by
  obtain ⟨table, halike, hperm⟩ := h
  have hkeys := Json.hasKeysApart_of_texts hs.isSome_text? hs.keyed.nodup
  rw [← Json.find?_of_perm hperm.symm hkeys]
  clear hperm
  generalize s.documents = known at halike
  induction halike with
  | nil => exact .none
  | cons hentry _ ih =>
    rw [Json.find?, Json.find?, hentry.1]
    split
    · exact .some hentry.2
    · exact ih

/-- What alike documents have in common is there as often. -/
theorem Alike.perm_map {α : Type} {f : Document → α} (h : s.Alike s')
    (hf : ∀ {d d'}, d.Alike d' → f d' = f d) :
    (s'.documents.map fun e => f e.2).Perm (s.documents.map fun e => f e.2) := by
  obtain ⟨table, halike, hperm⟩ := h
  have hsame : (table.map fun e => f e.2) = s.documents.map fun e => f e.2 := by
    clear hperm
    generalize s.documents = known at halike
    induction halike with
    | nil => rfl
    | cons hentry _ ih => rw [List.map_cons, List.map_cons, hf hentry.2, ih]
  rw [← hsame]
  exact hperm.symm.map _

/-- Visits take in documents of the same names. -/
theorem Alike.visit (h : s.Alike s') (hs : s'.IsTyped) (bound : Nat) (seen queue : List Json) :
    (visit s' bound seen queue).map (List.map fun d => d.name) =
      (visit s bound seen queue).map (List.map fun d => d.name) := by
  induction bound generalizing seen queue with
  | zero => rfl
  | succ bound ih =>
    cases queue with
    | nil => rfl
    | cons name queue =>
      simp only [Schema.visit]
      cases name.asKey with
      | error e => rfl
      | ok name =>
        simp only [bind, Except.bind]
        split
        · exact ih _ _
        · have hfound := h.find? hs name
          cases hd : Json.find? name s.documents <;> cases hd' : Json.find? name s'.documents <;>
            rw [hd, hd'] at hfound <;> cases hfound
          case none => exact ih _ _
          case some d d' halike =>
            have hrest := ih (name :: seen) (queue ++ d.links)
            have hfirst : ∀ (d : Document) (docs : Except ShapeError (List Document)),
                (docs >>= fun docs => .ok (d :: docs)).map (List.map fun d => d.name) =
                  (docs.map (List.map fun d => d.name)).map (d.name :: ·) := by
              intro d docs
              cases docs <;> rfl
            dsimp only
            rw [halike.links]
            exact (hfirst d' _).trans (by rw [hrest, halike.name, ← hfirst d]; rfl)

/-- From any roots, documents of the same names are collected in the same order, or the roots are
refused for the same reason. -/
theorem Alike.collect (h : s.Alike s') (hs : s.IsTyped) (hs' : s'.IsTyped) (roots : Json) :
    (s'.collect roots).map (List.map fun d => d.name) =
      (s.collect roots).map (List.map fun d => d.name) := by
  unfold Schema.collect
  split
  · cases roots.elements with
    | error e => rfl
    | ok names =>
      have : RightCommutative fun m n : Nat => m + n := ⟨Nat.add_right_comm⟩
      have hlinks := (h.perm_map fun halike => congrArg List.length halike.links).foldl_eq
        (f := fun m n => m + n) names.length
      change (reachable s' names).map _ = (reachable s names).map _
      rw [reachable, reachable, hlinks]
      exact h.visit hs' _ _ _
  · obtain ⟨docs, texts, hdocs, hall, hnames, hsorted⟩ := hs.inNameOrder_ascending
    obtain ⟨docs', texts', hdocs', hall', hnames', hsorted'⟩ := hs'.inNameOrder_ascending
    rw [hdocs, hdocs', Except.map, Except.map, hnames, hnames']
    have hperm : (docs'.map fun d => d.name).Perm (docs.map fun d => d.name) := by
      refine (hall'.map _).trans (.trans ?_ (hall.map _).symm)
      rw [List.map_map, List.map_map]
      exact h.perm_map fun halike => halike.name
    have hperm : texts'.Perm texts := by
      rw [hnames, hnames'] at hperm
      simpa [Function.comp_def, Json.text?] using hperm.filterMap Json.text?
    rw [List.Perm.eq_of_pairwise (fun _ _ _ _ hlt hgt => absurd hgt (String.lt_asymm hlt)) hsorted'
      hsorted hperm]

end Schema
end SchemaArtifacts
