import SchemaArtifacts.Sorting.Gallop

/-!
# Merging two runs

Two neighbouring runs are merged from the front or from the back, whichever run is shorter being the
one that is waited for. Items are compared one by one until one run has won often enough in a row;
then whole stretches are taken at once, until the stretches become short again. How often is enough
changes with the luck of these changes.

## Main definitions

* `Sorting.Merging` — two runs that are being merged
* `Sorting.Merging.run` — the merge, item by item or stretch by stretch
* `Sorting.mergeRuns` — two neighbouring runs merged

## Main results

* `Sorting.perm_of_mergeRuns` — no item is lost
-/

namespace SchemaArtifacts.Sorting

variable {α ε : Type}

/-- Two runs that are being merged, each with its next item in front, and what has been merged, the
last item in front. From the back, the runs and what was merged stand in reverse. -/
structure Merging (α : Type) where
  fromBack : Bool
  first : List α
  second : List α
  merged : List α := []

/-- Whether single items are compared, with how often each run has won in a row, or stretches are
taken. -/
inductive Pace where
  | single (firsts seconds : Nat)
  | stretches

/-- A stretch of at least this length is worth looking for. -/
def worthwhile : Nat := 7

namespace Merging

variable {m m' : Merging α}

/-- Two runs, to be merged from the back or from the front. -/
def ofRuns (fromBack : Bool) (left right : List α) : Merging α :=
  if fromBack then { fromBack, first := left.reverse, second := right.reverse }
  else { fromBack, first := left, second := right }

/-- Takes items of the first run. -/
def takeFirst (m : Merging α) (n : Nat) : Merging α :=
  { m with first := m.first.drop n, merged := (m.first.take n).reverse ++ m.merged }

/-- Takes items of the second run. -/
def takeSecond (m : Merging α) (n : Nat) : Merging α :=
  { m with second := m.second.drop n, merged := (m.second.take n).reverse ++ m.merged }

/-- Nothing is left to compare: the run that is waited for has one item left, which comes last, or
the other run has none. -/
def isDone (m : Merging α) : Bool :=
  if m.fromBack then m.first.isEmpty || m.second.length ≤ 1
  else m.second.isEmpty || m.first.length ≤ 1

/-- All items in order, once nothing is left to compare. -/
def items (m : Merging α) : List α :=
  if m.fromBack then (m.first ++ m.second).reverse ++ m.merged
  else m.merged.reverse ++ (m.second ++ m.first)

/-- How many items of the first run come before the next one of the second, in the direction of the
merge. -/
def countFirst (before : Before α ε) (m : Merging α) : Except ε Nat :=
  match m.second with
  | [] => .ok 0
  | b :: _ =>
    if m.fromBack then countBack m.first.reverse fun a => not <$> before b a
    else countFront m.first fun a => not <$> before b a

/-- How many items of the second run come before the next one of the first, in the direction of the
merge. -/
def countSecond (before : Before α ε) (m : Merging α) : Except ε Nat :=
  match m.first with
  | [] => .ok 0
  | a :: _ =>
    if m.fromBack then countBack m.second.reverse fun b => before b a
    else countFront m.second fun b => before b a

/-- Merges two runs. `enough` wins in a row make stretches worth trying; it falls while they are
found and rises when they are not. At most `steps` steps are taken; each takes an item. -/
def run (before : Before α ε) (m : Merging α) (pace : Pace) (enough : Nat) :
    (steps : Nat) → Except ε (Merging α × Nat)
  | 0 => .ok (m, enough)
  | steps + 1 =>
    match pace, m.first, m.second with
    | .single firsts seconds, a :: _, b :: _ => do
      if (← before b a) = m.fromBack then
        let m := m.takeFirst 1
        if m.isDone then return (m, enough)
        if enough ≤ firsts + 1 then run before m .stretches (enough + 1) steps
        else run before m (.single (firsts + 1) 0) enough steps
      else
        let m := m.takeSecond 1
        if m.isDone then return (m, enough)
        if enough ≤ seconds + 1 then run before m .stretches (enough + 1) steps
        else run before m (.single 0 (seconds + 1)) enough steps
    | .stretches, _, _ => do
      let enough := if 1 < enough then enough - 1 else enough
      let firsts ← m.countFirst before
      let m := m.takeFirst firsts
      if m.isDone then return (m, enough)
      let m := m.takeSecond 1
      if m.isDone then return (m, enough)
      let seconds ← m.countSecond before
      let m := m.takeSecond seconds
      if m.isDone then return (m, enough)
      let m := m.takeFirst 1
      if m.isDone then return (m, enough)
      if worthwhile ≤ firsts || worthwhile ≤ seconds then run before m .stretches enough steps
      else run before m (.single 0 0) (enough + 1) steps
    | _, _, _ => .ok (m, enough)

/-- Takes the item that is known to come first: the first of the second run, or from the back the
last of the first. -/
def takeKnown (m : Merging α) : Merging α := if m.fromBack then m.takeFirst 1 else m.takeSecond 1

/-- Merges two runs that overlap. -/
def start (before : Before α ε) (m : Merging α) (enough : Nat) : Except ε (Merging α × Nat) :=
  let steps := m.first.length + m.second.length
  if m.takeKnown.isDone then .ok (m.takeKnown, enough)
  else m.takeKnown.run before (.single 0 0) enough steps

theorem perm_ofRuns (fromBack : Bool) (left right : List α) :
    (ofRuns fromBack left right).items.Perm (left ++ right) := by
  cases fromBack
  · simpa [ofRuns, items] using List.perm_append_comm
  · simpa [ofRuns, items] using List.perm_append_comm

theorem perm_takeFirst (n : Nat) : (m.takeFirst n).items.Perm m.items := by
  unfold items takeFirst
  split
  · have h : (m.first.drop n).reverse ++ (m.first.take n).reverse = m.first.reverse := by
      rw [← List.reverse_append, List.take_append_drop]
    simp only [List.reverse_append, List.append_assoc, ← h]
    exact .refl _
  · simp only [List.reverse_append, List.reverse_reverse, List.append_assoc]
    refine List.Perm.append_left _ ?_
    refine (List.perm_append_comm_assoc _ _ _).trans ?_
    rw [List.take_append_drop]

theorem perm_takeSecond (n : Nat) : (m.takeSecond n).items.Perm m.items := by
  unfold items takeSecond
  split
  · have h : (m.second.drop n).reverse ++ (m.second.take n).reverse = m.second.reverse := by
      rw [← List.reverse_append, List.take_append_drop]
    simp only [List.reverse_append, List.append_assoc, ← h]
    refine List.Perm.append_left _ ?_
    exact List.perm_append_comm_assoc _ _ _
  · simp only [List.reverse_append, List.reverse_reverse, List.append_assoc]
    refine List.Perm.append_left _ ?_
    rw [← List.append_assoc, List.take_append_drop]

theorem perm_of_run {before : Before α ε} {pace : Pace} {enough enough' steps : Nat}
    (h : run before m pace enough steps = .ok (m', enough')) : m'.items.Perm m.items := by
  induction steps generalizing m pace enough with
  | zero =>
    cases h
    exact .refl _
  | succ steps ih =>
    rw [run.eq_def] at h
    simp only at h
    split at h
    · obtain ⟨less, -, h⟩ := Result.bind_eq_ok.1 h
      split at h
      · have hm := perm_takeFirst (m := m) 1
        split at h
        · cases h
          exact hm
        · split at h <;> exact (ih h).trans hm
      · have hm := perm_takeSecond (m := m) 1
        split at h
        · cases h
          exact hm
        · split at h <;> exact (ih h).trans hm
    · obtain ⟨n, -, h⟩ := Result.bind_eq_ok.1 h
      have hn := perm_takeFirst (m := m) n
      split at h
      · cases h
        exact hn
      have hn := (perm_takeSecond 1).trans hn
      split at h
      · cases h
        exact hn
      obtain ⟨k, -, h⟩ := Result.bind_eq_ok.1 h
      have hk := (perm_takeSecond k).trans hn
      split at h
      · cases h
        exact hk
      have hk := (perm_takeFirst 1).trans hk
      split at h
      · cases h
        exact hk
      split at h <;> exact (ih h).trans hk
    · cases h
      exact .refl _

theorem perm_takeKnown : m.takeKnown.items.Perm m.items := by
  unfold takeKnown
  split
  · exact perm_takeFirst 1
  · exact perm_takeSecond 1

theorem perm_of_start {before : Before α ε} {enough enough' : Nat}
    (h : start before m enough = .ok (m', enough')) : m'.items.Perm m.items := by
  unfold start at h
  simp only at h
  split at h
  · cases h
    exact perm_takeKnown
  · exact (perm_of_run h).trans perm_takeKnown

end Merging

/-- Where two neighbouring runs overlap: how many items of the first come before all of the second,
and how many of the second come before the last of the first. -/
def overlap (before : Before α ε) (first second : List α) : Except ε (Nat × Nat) :=
  match second, first.getLast? with
  | b :: _, some a => do
    let low ← countFront first fun x => not <$> before b x
    if first.length ≤ low then return (low, 0)
    return (low, second.length - (← countBack second fun y => before y a))
  | _, _ => .ok (0, 0)

/-- Two neighbouring runs merged. Only what overlaps is moved, from the front unless more of the
first run is left than of the second. -/
def mergeRuns (before : Before α ε) (enough : Nat) (first second : List α) :
    Except ε (List α × Nat) := do
  let (low, high) ← overlap before first second
  if high = 0 then return (first ++ second, enough)
  let m := Merging.ofRuns (high < first.length - low) (first.drop low) (second.take high)
  let (m, enough) ← m.start before enough
  return (first.take low ++ m.items ++ second.drop high, enough)

theorem perm_of_mergeRuns {before : Before α ε} {enough enough' : Nat} {first second all : List α}
    (h : mergeRuns before enough first second = .ok (all, enough')) :
    all.Perm (first ++ second) := by
  obtain ⟨⟨low, high⟩, -, h⟩ := Result.bind_eq_ok.1 h
  dsimp only at h
  split at h
  · cases h
    exact .refl _
  obtain ⟨⟨m, e⟩, hm, h⟩ := Result.bind_eq_ok.1 h
  cases h
  have hm := (Merging.perm_of_start hm).trans (Merging.perm_ofRuns _ _ _)
  refine ((hm.append_left _).append_right _).trans (.of_eq ?_)
  rw [← List.append_assoc, List.take_append_drop, List.append_assoc, List.take_append_drop]

end SchemaArtifacts.Sorting
