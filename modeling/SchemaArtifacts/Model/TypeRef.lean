import SchemaArtifacts.Text.Cut

/-!
# Type references

A reference to a type of another namespace is written `alias:Name`; without a colon it names a type
of the same namespace.

## Main definitions

* `TypeRef` — the alias, if any, and the name
* `TypeRef.ofString`, `TypeRef.toString` — reading and writing

## Main results

* `TypeRef.toString_ofString` — nothing is lost by reading
* `TypeRef.alias_ofString_eq_none_iff` — a reference is local exactly when it has no colon
-/

namespace SchemaArtifacts

/-- A reference to a type. -/
structure TypeRef where
  /-- The alias of the namespace that declares the type; none for the same namespace. -/
  alias_ : Option String
  name : String
  deriving Repr, DecidableEq

namespace TypeRef

/-- Reads a reference: the first colon ends the alias. -/
def ofString (s : String) : TypeRef :=
  match Text.cut? ':' s.toList with
  | none => ⟨none, s⟩
  | some (alias_, name) => ⟨some (String.ofList alias_), String.ofList name⟩

/-- Writes a reference. -/
protected def toString : TypeRef → String
  | ⟨none, name⟩ => name
  | ⟨some alias_, name⟩ => alias_ ++ ":" ++ name

theorem toString_ofString (s : String) : (ofString s).toString = s := by
  unfold ofString
  split
  · rfl
  · rename_i a b h
    obtain ⟨hs, -⟩ := Text.cut?_eq_some_iff.1 h
    apply String.toList_injective
    simp [TypeRef.toString, hs]

theorem alias_ofString_eq_none_iff {s : String} :
    (ofString s).alias_ = none ↔ ':' ∉ s.toList := by
  unfold ofString
  split
  · rename_i h; simpa using Text.cut?_eq_none_iff.1 h
  · rename_i a b h
    obtain ⟨hs, -⟩ := Text.cut?_eq_some_iff.1 h
    simp [hs]

end TypeRef

end SchemaArtifacts
