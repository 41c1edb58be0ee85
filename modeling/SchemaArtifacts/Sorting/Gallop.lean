import SchemaArtifacts.Sorting.Run

/-!
# Galloping

To find where a test stops holding, steps of growing width are taken from one end, and then the last
step is halved.

## Main definitions

* `Sorting.reach` — steps of growing width
* `Sorting.gallop` — where a test stops holding, from a given place on
* `Sorting.countFront`, `Sorting.countBack` — how many items at an end of a list pass a test
-/

namespace SchemaArtifacts.Sorting

variable {α ε : Type}

/-- Steps from `step` on, each one more than twice as wide as the one before, as long as a test
holds and `limit` is not reached: the widest at which the test held, or else `last`, and the next
one. -/
def reach (test : Nat → Except ε Bool) (limit last step : Nat) : Except ε (Nat × Nat) :=
  if _ : step < limit then do
    if ← test step then reach test limit step (2 * step + 1) else return (last, step)
  else .ok (last, limit)
termination_by limit - step
decreasing_by omega

/-- The first of `count` numbers at which a test does not hold, looked for from `hint` on in the
direction in which it must be. -/
def gallop (test : Nat → Except ε Bool) (count hint : Nat) : Except ε Nat := do
  if ← test hint then
    let (last, step) ← reach (fun d => test (hint + d)) (count - hint) 0 1
    bisect test (hint + last + 1) (hint + step)
  else
    let (last, step) ← reach (fun d => not <$> test (hint - d)) (hint + 1) 0 1
    bisect test (hint + 1 - step) (hint - last)

/-- How many items at the front of a list pass a test, looked for from the front. -/
def countFront (items : List α) (test : α → Except ε Bool) : Except ε Nat :=
  gallop (testAt items.toArray test) items.length 0

/-- How many items at the back of a list do not pass a test that those in front of them pass, looked
for from the back. -/
def countBack (items : List α) (test : α → Except ε Bool) : Except ε Nat :=
  (items.length - ·) <$> gallop (testAt items.toArray test) items.length (items.length - 1)

end SchemaArtifacts.Sorting
