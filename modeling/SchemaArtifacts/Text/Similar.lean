/-!
# Similar texts

How alike two texts are: the longest stretch that both hold is matched, then what stands to its left
and to its right, and so on. Alike enough are those that match in three fifths of their characters.

## Main definitions

* `Text.longestShared` — the longest stretch that two texts share
* `Text.matched` — how many characters are matched
* `Text.similar` — the texts of a list that are most like a word
-/

namespace SchemaArtifacts.Text

/-- How many characters two texts start with together. -/
def sharedStart : List Char → List Char → Nat
  | x :: a, y :: b => if x = y then sharedStart a b + 1 else 0
  | _, _ => 0

/-- Where two texts share a stretch, and how long it is. -/
structure Shared where
  left : Nat := 0
  right : Nat := 0
  length : Nat := 0
  deriving Repr, DecidableEq

/-- The longest stretch that two texts share; of equally long ones the first in the first text, then
the first in the second. -/
def longestShared (a b : List Char) : Shared :=
  (List.range a.length).foldl (fun best i =>
    (List.range b.length).foldl (fun best j =>
      let length := sharedStart (a.drop i) (b.drop j)
      if best.length < length then { left := i, right := j, length } else best) best) {}

/-- How many characters of two texts are matched. `bound` is at least the length of the first. -/
def matchedUpTo : (bound : Nat) → List Char → List Char → Nat
  | 0, _, _ => 0
  | bound + 1, a, b =>
    let best := longestShared a b
    if best.length = 0 then 0
    else
      best.length + matchedUpTo bound (a.take best.left) (b.take best.right) +
        matchedUpTo bound (a.drop (best.left + best.length)) (b.drop (best.right + best.length))

/-- How many characters of two texts are matched. -/
def matched (a b : List Char) : Nat := matchedUpTo a.length a b

/-- The share of matched characters, as a fraction of a sum of lengths. -/
def likeness (a b : String) : Rat :=
  mkRat (2 * matched a.toList b.toList) (a.length + b.length)

/-- The greatest number of similar texts. -/
def similarLimit : Nat := 3

/-- The texts of a list that are most like a word, in ascending order. -/
def similar (word : String) (texts : List String) : List String :=
  let likely := texts.filter fun t => (3 / 5 : Rat) ≤ likeness t word
  let best := likely.mergeSort fun s t =>
    likeness t word < likeness s word || likeness s word == likeness t word && t ≤ s
  (best.take similarLimit).mergeSort fun s t => s ≤ t

end SchemaArtifacts.Text
