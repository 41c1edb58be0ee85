import SchemaArtifacts.Sorting.Merge

/-!
# Sorting by merging runs

Runs are taken off a list and merged pairwise, neighbours only. Which neighbours are merged when is
decided by where their middles lie: the later two middles fall into different halves of a halving of
the whole, the later the runs are merged.

## Main definitions

* `Sorting.leastRun` — the length that runs are brought to
* `Sorting.power` — how late two neighbouring runs are to be merged
* `Sorting.sort` — a list sorted

## Main results

* `Sorting.perm_of_sort` — no item is lost
-/

namespace SchemaArtifacts.Sorting

variable {α ε : Type}

/-- The first six binary digits of a number, and one more if `more` is one or any other digit is. -/
def sixDigits (count more : Nat) : Nat :=
  if count < 64 then count + more else sixDigits (count / 2) (max more (count % 2))
termination_by count

/-- The length that the runs of a list of `count` items are brought to: between 32 and 64 for a long
list, so that the runs are nearly a power of two in number. -/
def leastRun (count : Nat) : Nat := sixDigits count 0

/-- How late two neighbouring runs of `first` and `second` items, from place `start` of `count`, are
to be merged: the first halving of the whole that has their middles on different sides. -/
def power (count start first second : Nat) : Nat :=
  let left := 2 * start + first
  let right := left + first + second
  ((List.range (count + 1)).find? fun n => Nat.pow 2 n * left / count ≠ Nat.pow 2 n * right / count).getD count

/-- A run that waits to be merged. -/
structure Pending (α : Type) where
  items : List α
  /-- The place of its first item. -/
  start : Nat
  /-- How late it is to be merged with the next one. -/
  power : Nat := 0

/-- The items of waiting runs, the last run in front. -/
def pendingItems (runs : List (Pending α)) : List α := (runs.reverse.map Pending.items).flatten

/-- Merges the last two of the waiting runs as long as they are to be merged later than `power`
says. -/
def collapse (before : Before α ε) (power enough : Nat) :
    List (Pending α) → Except ε (List (Pending α) × Nat)
  | top :: below :: rest =>
    if power < below.power then do
      let (items, enough) ← mergeRuns before enough below.items top.items
      collapse before power enough ({ below with items } :: rest)
    else .ok (top :: below :: rest, enough)
  | few => .ok (few, enough)
termination_by runs => runs.length

/-- Merges all waiting runs, the shorter neighbour of the last but one first. -/
def collapseAll (before : Before α ε) (enough : Nat) :
    List (Pending α) → Except ε (List α)
  | top :: below :: third :: rest => do
    if third.items.length < top.items.length then
      let (items, enough) ← mergeRuns before enough third.items below.items
      collapseAll before enough (top :: { third with items } :: rest)
    else
      let (items, enough) ← mergeRuns before enough below.items top.items
      collapseAll before enough ({ below with items } :: third :: rest)
  | [top, below] => Prod.fst <$> mergeRuns before enough below.items top.items
  | [top] => .ok top.items
  | [] => .ok []
termination_by runs => runs.length

/-- A new run joins those that wait. -/
def join (before : Before α ε) (count enough : Nat) (run : List α) :
    List (Pending α) → Except ε (List (Pending α) × Nat)
  | [] => .ok ([{ items := run, start := 0 }], enough)
  | top :: rest => do
    let late := power count top.start top.items.length run.length
    let next : Pending α := { items := run, start := top.start + top.items.length }
    match ← collapse before late enough (top :: rest) with
    | (top :: rest, enough) => return (next :: { top with power := late } :: rest, enough)
    | ([], enough) => return ([next], enough)

/-- Takes runs off a list, at most `runs`, each joining those that wait, and merges all. -/
def sortFrom (before : Before α ε) (count enough : Nat) (waiting : List (Pending α))
    (items : List α) : (runs : Nat) → Except ε (List α)
  | 0 => collapseAll before enough waiting
  | runs + 1 =>
    if items.isEmpty then collapseAll before enough waiting
    else do
      let (run, rest) ← nextRun before (leastRun count) items
      let (waiting, enough) ← join before count enough run waiting
      sortFrom before count enough waiting rest runs

/-- A list sorted. Items of which neither comes before the other keep their order. -/
def sort (before : Before α ε) (items : List α) : Except ε (List α) :=
  sortFrom before items.length worthwhile [] items items.length

@[simp] theorem pendingItems_nil : pendingItems ([] : List (Pending α)) = [] := rfl

@[simp] theorem pendingItems_cons (top : Pending α) (rest : List (Pending α)) :
    pendingItems (top :: rest) = pendingItems rest ++ top.items := by
  simp [pendingItems]

theorem perm_of_collapse {before : Before α ε} {late enough enough' : Nat}
    {runs runs' : List (Pending α)} (h : collapse before late enough runs = .ok (runs', enough')) :
    (pendingItems runs').Perm (pendingItems runs) := by
  fun_induction collapse before late enough runs with
  | case1 enough top below rest hp ih =>
    obtain ⟨⟨items, e⟩, hm, h⟩ := Result.bind_eq_ok.1 h
    refine (ih items e h).trans ?_
    simpa using (perm_of_mergeRuns hm).append_left (pendingItems rest)
  | case2 =>
    cases h
    exact .refl _
  | case3 =>
    cases h
    exact .refl _

theorem perm_of_collapseAll {before : Before α ε} {enough : Nat} {runs : List (Pending α)}
    {all : List α} (h : collapseAll before enough runs = .ok all) :
    all.Perm (pendingItems runs) := by
  fun_induction collapseAll before enough runs with
  | case1 enough top below third rest hl ih =>
    obtain ⟨⟨items, e⟩, hm, h⟩ := Result.bind_eq_ok.1 h
    refine (ih items e h).trans ?_
    simpa using ((perm_of_mergeRuns hm).append_right top.items).append_left (pendingItems rest)
  | case2 enough top below third rest hl ih =>
    obtain ⟨⟨items, e⟩, hm, h⟩ := Result.bind_eq_ok.1 h
    refine (ih items e h).trans ?_
    simpa using (perm_of_mergeRuns hm).append_left (pendingItems rest ++ third.items)
  | case3 enough top below =>
    cases hm : mergeRuns before enough below.items top.items with
    | error e =>
      rw [hm] at h
      cases h
    | ok merged =>
      rw [hm] at h
      cases h
      simpa using perm_of_mergeRuns hm
  | case4 =>
    cases h
    simp
  | case5 =>
    cases h
    exact .refl _

theorem perm_of_join {before : Before α ε} {count enough enough' : Nat} {run : List α}
    {waiting waiting' : List (Pending α)}
    (h : join before count enough run waiting = .ok (waiting', enough')) :
    (pendingItems waiting').Perm (pendingItems waiting ++ run) := by
  cases waiting with
  | nil =>
    cases h
    simp
  | cons top rest =>
    obtain ⟨⟨runs, e⟩, hc, h⟩ := Result.bind_eq_ok.1 h
    have hr := (perm_of_collapse hc).append_right run
    cases runs with
    | nil =>
      cases h
      simpa using hr
    | cons top' rest' =>
      cases h
      simpa using hr

theorem perm_of_sortFrom {before : Before α ε} {count enough runs : Nat}
    {waiting : List (Pending α)} {items all : List α} (hn : items.length ≤ runs)
    (h : sortFrom before count enough waiting items runs = .ok all) :
    all.Perm (pendingItems waiting ++ items) := by
  induction runs generalizing enough waiting items with
  | zero =>
    rw [List.length_eq_zero_iff.1 (Nat.le_zero.1 hn), List.append_nil]
    exact perm_of_collapseAll h
  | succ runs ih =>
    rw [sortFrom] at h
    by_cases hi : items = []
    · rw [if_pos (List.isEmpty_iff.2 hi)] at h
      rw [hi, List.append_nil]
      exact perm_of_collapseAll h
    · rw [if_neg (by simpa using hi)] at h
      obtain ⟨⟨run, rest⟩, hr, h⟩ := Result.bind_eq_ok.1 h
      obtain ⟨⟨joined, e⟩, hj, h⟩ := Result.bind_eq_ok.1 h
      have hl := length_lt_of_nextRun hi hr
      refine (ih (by omega) h).trans (((perm_of_join hj).append_right rest).trans ?_)
      rw [List.append_assoc]
      exact (perm_of_nextRun hr).append_left _

theorem perm_of_sort {before : Before α ε} {items all : List α}
    (h : sort before items = .ok all) : all.Perm items :=
  perm_of_sortFrom (Nat.le_refl _) h

end SchemaArtifacts.Sorting
