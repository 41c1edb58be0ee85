import SchemaArtifacts.Result

/-!
# Runs

A list is sorted from stretches that are in order already. Items are compared by a question that may
be refused; which comparisons are made, and in which order, is part of what is defined here.

## Main definitions

* `Sorting.Before` — whether one item comes before another
* `Sorting.bisect` — where a test stops holding, by halving
* `Sorting.leadingRun` — the ascending or strictly descending stretch that begins a list
* `Sorting.insertAll` — items are put into a sorted list one after the other
* `Sorting.nextRun` — a run of at least a given length, taken off a list

## Main results

* `Sorting.perm_of_insertAll`, `Sorting.perm_of_nextRun` — no item is lost
* `Sorting.length_lt_of_nextRun` — a run taken off has an item
-/

namespace SchemaArtifacts.Sorting

variable {α ε : Type}

/-- Whether one item comes before another; the question may be refused. -/
abbrev Before (α ε : Type) := α → α → Except ε Bool

/-- The first number from `low` and below `high` at which a test does not hold, if it holds for an
initial stretch of them. The middle one is tested until none is left. -/
def bisect (test : Nat → Except ε Bool) (low high : Nat) : Except ε Nat :=
  if _ : low < high then do
    let middle := low + (high - low) / 2
    if ← test middle then bisect test (middle + 1) high else bisect test low middle
  else .ok low
termination_by high - low
decreasing_by all_goals omega

/-- A test of items as a test of places; it does not hold where there is no item. -/
def testAt (items : Array α) (test : α → Except ε Bool) (i : Nat) : Except ε Bool :=
  match items[i]? with
  | some a => test a
  | none => .ok false

/-- How many items after `last` continue a stretch in which each does or does not come before the
one in front of it, as `down` says. -/
def continues (before : Before α ε) (down : Bool) (last : α) : List α → Except ε Nat
  | [] => .ok 0
  | a :: rest => do
    if (← before a last) = down then return (← continues before down a rest) + 1 else return 0

/-- The length of the stretch that begins a list, and whether it descends. The first two items say
whether it does. -/
def leadingStretch (before : Before α ε) : List α → Except ε (Nat × Bool)
  | a :: b :: rest => do
    let down ← before b a
    return ((← continues before down b rest) + 2, down)
  | short => .ok (short.length, false)

/-- The stretch that begins a list, put in ascending order, and what follows it. -/
def leadingRun (before : Before α ε) (items : List α) : Except ε (List α × List α) := do
  let (length, down) ← leadingStretch before items
  let run := items.take length
  return (if down then run.reverse else run, items.drop length)

/-- Puts items into a sorted list one after the other, each behind those that it does not come
before. -/
def insertAll (before : Before α ε) (sorted : List α) : List α → Except ε (List α)
  | [] => .ok sorted
  | a :: rest => do
    let n ← bisect (testAt sorted.toArray fun b => not <$> before a b) 0 sorted.length
    insertAll before (sorted.take n ++ a :: sorted.drop n) rest

/-- A run taken off a list. One of fewer than `least` items takes in the next ones. -/
def nextRun (before : Before α ε) (least : Nat) (items : List α) :
    Except ε (List α × List α) := do
  let (run, rest) ← leadingRun before items
  let missing := least - run.length
  return (← insertAll before run (rest.take missing), rest.drop missing)

theorem perm_of_insertAll {before : Before α ε} {sorted items all : List α}
    (h : insertAll before sorted items = .ok all) : all.Perm (sorted ++ items) := by
  induction items generalizing sorted with
  | nil =>
    cases h
    simp
  | cons a rest ih =>
    obtain ⟨n, -, h⟩ := Result.bind_eq_ok.1 h
    have hs : (sorted.take n ++ a :: sorted.drop n).Perm (a :: sorted) := by
      refine List.perm_middle.trans ?_
      rw [List.take_append_drop]
    exact (ih h).trans ((hs.append_right rest).trans List.perm_middle.symm)

theorem perm_of_leadingRun {before : Before α ε} {items run rest : List α}
    (h : leadingRun before items = .ok (run, rest)) : (run ++ rest).Perm items := by
  obtain ⟨⟨length, down⟩, -, h⟩ := Result.bind_eq_ok.1 h
  cases h
  have hd : (if down then (items.take length).reverse else items.take length).Perm
      (items.take length) := by
    split
    · exact List.reverse_perm _
    · exact .refl _
  exact (hd.append_right _).trans (by rw [List.take_append_drop])

theorem perm_of_nextRun {before : Before α ε} {least : Nat} {items run rest : List α}
    (h : nextRun before least items = .ok (run, rest)) : (run ++ rest).Perm items := by
  obtain ⟨⟨stretch, others⟩, hr, h⟩ := Result.bind_eq_ok.1 h
  obtain ⟨all, hi, h⟩ := Result.bind_eq_ok.1 h
  cases h
  refine ((perm_of_insertAll hi).append_right _).trans ?_
  rw [List.append_assoc, List.take_append_drop]
  exact perm_of_leadingRun hr

theorem length_lt_of_nextRun {before : Before α ε} {least : Nat} {items run rest : List α}
    (hi : items ≠ []) (h : nextRun before least items = .ok (run, rest)) :
    rest.length < items.length := by
  obtain ⟨⟨stretch, others⟩, hr, h⟩ := Result.bind_eq_ok.1 h
  obtain ⟨all, -, h⟩ := Result.bind_eq_ok.1 h
  cases h
  obtain ⟨⟨length, down⟩, hl, hr⟩ := Result.bind_eq_ok.1 hr
  cases hr
  have hp := List.length_pos_iff.2 hi
  have hl : 0 < length := by
    unfold leadingStretch at hl
    split at hl
    · obtain ⟨down', -, hl⟩ := Result.bind_eq_ok.1 hl
      obtain ⟨n, -, hl⟩ := Result.bind_eq_ok.1 hl
      cases hl
      exact Nat.succ_pos _
    · cases hl
      exact hp
  simp only [List.length_drop]
  omega

end SchemaArtifacts.Sorting
