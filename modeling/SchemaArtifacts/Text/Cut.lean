/-!
# Cutting text at a separator

## Main definitions

* `Text.cut?` — the parts before and after the first occurrence of a separator
* `Text.cutLast?` — the parts before and after the last occurrence
* `Text.pieces` — the non-empty stretches between separators
* `Text.dropTrailing` — a text without its trailing occurrences of a character

## Main results

* `cut?_eq_some_iff`, `cut?_eq_none_iff` — what the first cut finds
* `cutLast?_eq_some_iff`, `cutLast?_eq_none_iff` — what the last cut finds
* `not_mem_of_mem_pieces`, `ne_nil_of_mem_pieces` — a piece is non-empty and holds no separator
-/

namespace SchemaArtifacts.Text

variable {c : Char} {s a b : List Char}

/-- The parts before and after the first `c`. -/
def cut? (c : Char) : List Char → Option (List Char × List Char)
  | [] => none
  | x :: rest =>
    if x = c then some ([], rest)
    else (cut? c rest).map fun parts => (x :: parts.1, parts.2)

theorem cut?_eq_none_iff : cut? c s = none ↔ c ∉ s := by
  induction s with
  | nil => simp [cut?]
  | cons x rest ih =>
    by_cases h : x = c
    · simp [cut?, h]
    · simp [cut?, h, ih, Ne.symm h]

theorem cut?_eq_some_iff : cut? c s = some (a, b) ↔ s = a ++ c :: b ∧ c ∉ a := by
  induction s generalizing a with
  | nil => simp [cut?]
  | cons x rest ih =>
    by_cases h : x = c
    · subst h
      cases a with
      | nil => simp [cut?]
      | cons y a =>
        simp only [cut?, ↓reduceIte, Option.some.injEq, Prod.mk.injEq, reduceCtorEq, false_and,
          List.cons_append, List.cons.injEq, List.mem_cons, not_or, false_iff, not_and]
        rintro ⟨rfl, -⟩ hne
        exact absurd rfl hne
    · cases a with
      | nil => simp [cut?, h]
      | cons y a =>
        simp only [cut?, h, ↓reduceIte, Option.map_eq_some_iff, Prod.mk.injEq, List.cons.injEq,
          Prod.exists, List.cons_append, List.mem_cons, not_or]
        constructor
        · rintro ⟨a', b', hcut, ⟨rfl, rfl⟩, rfl⟩
          obtain ⟨rfl, ha⟩ := ih.1 hcut
          exact ⟨⟨rfl, rfl⟩, Ne.symm h, ha⟩
        · rintro ⟨⟨rfl, rfl⟩, -, ha⟩
          exact ⟨a, b, ih.2 ⟨rfl, ha⟩, ⟨rfl, rfl⟩, rfl⟩

/-- The parts before and after the last `c`. -/
def cutLast? (c : Char) (s : List Char) : Option (List Char × List Char) :=
  (cut? c s.reverse).map fun parts => (parts.2.reverse, parts.1.reverse)

theorem cutLast?_eq_none_iff : cutLast? c s = none ↔ c ∉ s := by
  simp [cutLast?, cut?_eq_none_iff]

theorem cutLast?_eq_some_iff : cutLast? c s = some (a, b) ↔ s = a ++ c :: b ∧ c ∉ b := by
  simp only [cutLast?, Option.map_eq_some_iff, Prod.exists, Prod.mk.injEq]
  constructor
  · rintro ⟨x, y, hcut, rfl, rfl⟩
    obtain ⟨hs, hx⟩ := cut?_eq_some_iff.1 hcut
    refine ⟨?_, by simpa using hx⟩
    have := congrArg List.reverse hs
    simpa using this
  · rintro ⟨rfl, hb⟩
    exact ⟨b.reverse, a.reverse, cut?_eq_some_iff.2 ⟨by simp, by simpa using hb⟩, by simp, by simp⟩

/-- The non-empty stretches between the characters that satisfy `sep`. -/
def pieces (sep : Char → Bool) (s : List Char) : List (List Char) :=
  (s.splitOnP sep).filter fun piece => !piece.isEmpty

theorem ne_nil_of_mem_pieces {sep : Char → Bool} (h : a ∈ pieces sep s) : a ≠ [] := by
  simpa [pieces] using (List.mem_filter.1 h).2

private theorem not_sep_of_mem_splitOnP {sep : Char → Bool} {s : List Char} :
    ∀ a ∈ s.splitOnP sep, ∀ x ∈ a, sep x = false := by
  induction s with
  | nil => simp
  | cons y rest ih =>
    rw [List.splitOnP_cons_eq_if_modifyHead]
    by_cases hy : sep y
    · simpa [hy] using ih
    · cases hsplit : rest.splitOnP sep with
      | nil => simp [hy]
      | cons first others =>
        rw [hsplit] at ih
        intro a ha x hx
        simp only [hy, Bool.false_eq_true, ↓reduceIte, List.modifyHead_cons, List.mem_cons] at ha
        rcases ha with rfl | ha
        · rcases List.mem_cons.1 hx with rfl | hx
          · simpa using hy
          · exact ih first (by simp) x hx
        · exact ih a (by simp [ha]) x hx

theorem not_mem_of_mem_pieces {sep : Char → Bool} (h : a ∈ pieces sep s) :
    ∀ x ∈ a, sep x = false :=
  not_sep_of_mem_splitOnP a (List.mem_filter.1 h).1

/-- The text without its trailing `c`s. -/
def dropTrailing (c : Char) (s : List Char) : List Char :=
  (s.reverse.dropWhile (· = c)).reverse

end SchemaArtifacts.Text
