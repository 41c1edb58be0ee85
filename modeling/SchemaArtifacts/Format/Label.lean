import SchemaArtifacts.Format.JavaScript
import SchemaArtifacts.Format.TypeScript

/-!
# Labels of formats

## Main definitions

* `Format.ofLabel` — the format that a label stands for

## Main results

* `Format.eq_or_eq_of_ofLabel` — a label stands for one of two formats
-/

namespace SchemaArtifacts.Format

/-- The labels of the TypeScript format. -/
def typeScriptLabels : List String := ["ts", "typescript"]

/-- The labels of the JavaScript format. -/
def javaScriptLabels : List String := ["js", "javascript"]

/-- The format that a label stands for. -/
def ofLabel (label : String) : Except Failure Format :=
  if label ∈ typeScriptLabels then .ok typeScript
  else if label ∈ javaScriptLabels then .ok javaScript
  else .error (.unknownFormat label)

theorem eq_or_eq_of_ofLabel {label : String} {f : Format} (h : ofLabel label = .ok f) :
    f = typeScript ∨ f = javaScript := by
  unfold ofLabel at h
  split at h
  · exact Or.inl (Except.ok.inj h).symm
  · split at h
    · exact Or.inr (Except.ok.inj h).symm
    · cases h

end SchemaArtifacts.Format
