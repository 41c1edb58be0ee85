import SchemaArtifacts.Json.Shape
import SchemaArtifacts.Sorting.Stable

/-!
# The order of values

Texts are ordered by code point, flags and numbers by value; other kinds have no order. A list of
texts is sorted as usual. A list of any other values is sorted by a fixed sequence of comparisons,
so that the first pair without an order is always the same one, and what is not a number has a place
although it comes before nothing.

## Main definitions

* `Json.before` — one value comes before another
* `Json.sortOn` — a list sorted by a key of its items

## Main results

* `Json.sortOn_texts` — when all keys are texts, sorting is stable and by code point
-/

namespace SchemaArtifacts.Json

/-- `a` comes before `b`. -/
def before (a b : Json) : Except ShapeError Bool :=
  match a, b with
  | .string s, .string t => .ok (s < t)
  | _, _ =>
    match a.toNumber?, b.toNumber? with
    | some m, some n => .ok (m.lt n)
    | _, _ => .error (.unordered a.kind b.kind)

variable {α : Type}

/-- The text that a value is. -/
def text? : Json → Option String
  | .string s => some s
  | _ => none

/-- Whether one of two items may stand in front of the other by the texts that are their keys. -/
def textLe (key : α → Json) (a b : α) : Bool := (key a).text?.getD "" ≤ (key b).text?.getD ""

/-- A list sorted by a key of its items. -/
def sortOn (key : α → Json) (items : List α) : Except ShapeError (List α) :=
  if items.all fun a => (key a).text?.isSome then .ok (items.mergeSort (textLe key))
  else Sorting.sort (fun a b => before (key a) (key b)) items

theorem sortOn_texts {key : α → Json} {items : List α}
    (h : ∀ a ∈ items, (key a).text?.isSome) :
    sortOn key items = .ok (items.mergeSort (textLe key)) := by
  unfold sortOn
  rw [if_pos (List.all_eq_true.2 h)]

theorem perm_of_sortOn {key : α → Json} {items sorted : List α}
    (h : sortOn key items = .ok sorted) : sorted.Perm items := by
  unfold sortOn at h
  split at h
  · cases h
    exact List.mergeSort_perm _ _
  · exact Sorting.perm_of_sort h

end SchemaArtifacts.Json
