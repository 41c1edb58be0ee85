import Mathlib.Data.List.Induction
import SchemaArtifacts.Text.Cut

/-!
# Cutting texts that are put together

Where a text is put together from parts, the cuts of the whole are told from those of the parts. A
separator between two parts keeps their pieces apart; without one the last piece of the first part
goes on in the second.

## Main results

* `Text.cut?_append`, `Text.cutLast?_append` — a text without the separator put behind another
* `Text.pieces_append_cons` — pieces on both sides of a separator
* `Text.exists_first_piece`, `Text.exists_last_piece` — the pieces at both ends
* `Text.length_pieces_filter_le` — leaving out characters makes no more pieces
-/

namespace SchemaArtifacts.Text

variable {c : Char} {s t a b piece : List Char} {sep : Char → Bool}

theorem pieces_append_cons (a b : List Char) (h : sep c) :
    pieces sep (a ++ c :: b) = pieces sep a ++ pieces sep b := by
  rw [pieces, List.splitOnP_append_cons a b h, List.filter_append]
  rfl

theorem pieces_of_forall (h : ∀ x ∈ s, sep x = false) (hne : s ≠ []) : pieces sep s = [s] := by
  simp [pieces, List.splitOnP_eq_singleton h, hne]

@[simp] theorem pieces_nil : pieces sep [] = [] := rfl

theorem cut?_append (h : c ∉ t) :
    cut? c (s ++ t) = (cut? c s).map fun parts => (parts.1, parts.2 ++ t) := by
  cases hs : cut? c s with
  | none => simpa using cut?_eq_none_iff.2 (by simp [cut?_eq_none_iff.1 hs, h])
  | some parts =>
    obtain ⟨rfl, ha⟩ := cut?_eq_some_iff.1 hs
    exact cut?_eq_some_iff.2 ⟨by simp, ha⟩

theorem cutLast?_append (h : c ∉ t) :
    cutLast? c (s ++ t) = (cutLast? c s).map fun parts => (parts.1, parts.2 ++ t) := by
  cases hs : cutLast? c s with
  | none => simpa using cutLast?_eq_none_iff.2 (by simp [cutLast?_eq_none_iff.1 hs, h])
  | some parts =>
    obtain ⟨rfl, hb⟩ := cutLast?_eq_some_iff.1 hs
    exact cutLast?_eq_some_iff.2 ⟨by simp, by simp [hb, h]⟩

/-- A text ends in a stretch without separators, which is its last piece unless it is empty. -/
theorem exists_last_piece (sep : Char → Bool) (s : List Char) :
    ∃ before last, (∀ x ∈ last, sep x = false) ∧
      (last = [] ↔ s.getLast?.all sep) ∧
      ∀ t, (∀ x ∈ t, sep x = false) →
        pieces sep (s ++ t) = before ++ if last ++ t = [] then [] else [last ++ t] := by
  -- From the end: a separator closes the last piece, and any other character goes on with it.
  induction s using List.reverseRecOn with
  | nil =>
    refine ⟨[], [], by simp, by simp, fun t ht => ?_⟩
    by_cases hne : t = []
    · simp [hne]
    · simp [hne, pieces_of_forall ht hne]
  | append_singleton s c ih =>
    obtain ⟨before, last, hlast, -, happ⟩ := ih
    by_cases hc : sep c
    · refine ⟨pieces sep s, [], by simp, by simp [hc], fun t ht => ?_⟩
      rw [List.append_assoc, List.singleton_append, pieces_append_cons s t hc]
      by_cases hne : t = []
      · simp [hne]
      · simp [hne, pieces_of_forall ht hne]
    · refine ⟨before, last ++ [c], ?_, by simp [hc], fun t ht => ?_⟩
      · intro x hx
        rcases List.mem_append.1 hx with hx | hx
        · exact hlast x hx
        · rw [List.mem_singleton.1 hx]
          simpa using hc
      · rw [List.append_assoc, List.append_assoc]
        refine happ ([c] ++ t) fun x hx => ?_
        rcases List.mem_append.1 hx with hx | hx
        · rw [List.mem_singleton.1 hx]
          simpa using hc
        · exact ht x hx

/-- A stretch without separators at the start of a text starts its first piece. -/
theorem exists_first_piece (ha : ∀ x ∈ a, sep x = false) (hne : a ≠ []) (b : List Char) :
    ∃ more rest, pieces sep (a ++ b) = (a ++ more) :: rest := by
  induction b generalizing a with
  | nil => exact ⟨[], [], by simp [pieces_of_forall ha hne]⟩
  | cons c b ih =>
    by_cases hc : sep c
    · exact ⟨[], pieces sep b, by rw [pieces_append_cons a b hc, pieces_of_forall ha hne]; simp⟩
    · have hac : ∀ x ∈ a ++ [c], sep x = false := by
        intro x hx
        rcases List.mem_append.1 hx with hx | hx
        · exact ha x hx
        · rw [List.mem_singleton.1 hx]
          simpa using hc
      obtain ⟨more, rest, h⟩ := ih hac (by simp)
      exact ⟨c :: more, rest, by simpa using h⟩

private theorem mem_of_mem_splitOnP (h : piece ∈ s.splitOnP sep) (hc : c ∈ piece) : c ∈ s := by
  induction s generalizing piece with
  | nil =>
    rw [List.splitOnP_nil, List.mem_singleton] at h
    rwa [h] at hc
  | cons x s ih =>
    rw [List.splitOnP_cons_eq_if_modifyHead] at h
    split at h
    · rcases List.mem_cons.1 h with rfl | h
      · cases hc
      · exact List.mem_cons_of_mem _ (ih h hc)
    · cases hs : s.splitOnP sep with
      | nil => exact absurd hs (List.splitOnP_ne_nil _ _)
      | cons first others =>
        rw [hs] at h ih
        rcases List.mem_cons.1 h with rfl | h
        · rcases List.mem_cons.1 hc with rfl | hc
          · exact List.mem_cons_self
          · exact List.mem_cons_of_mem _ (ih List.mem_cons_self hc)
        · exact List.mem_cons_of_mem _ (ih (List.mem_cons_of_mem _ h) hc)

theorem mem_of_mem_pieces (h : piece ∈ pieces sep s) (hc : c ∈ piece) : c ∈ s :=
  mem_of_mem_splitOnP (List.mem_filter.1 h).1 hc

theorem length_pieces_of_forall (h : ∀ x ∈ s, sep x = false) :
    (pieces sep s).length = if s = [] then 0 else 1 := by
  split
  · rename_i hs
    simp [hs]
  · rename_i hs
    rw [pieces_of_forall h hs]
    rfl

/-- Leaving out characters that are no separators makes no more pieces. -/
theorem length_pieces_filter_le (c : Char) {keep : Char → Bool} (hkeep : keep c) (s : List Char) :
    (pieces (· = c) (s.filter keep)).length ≤ (pieces (· = c) s).length := by
  -- By the length: both texts are cut at the same separators, since none is left out.
  induction hn : s.length using Nat.strongRecOn generalizing s with
  | ind n ih =>
    cases hcut : cut? c s with
    | none =>
      have hno := cut?_eq_none_iff.1 hcut
      have hs : ∀ x ∈ s, (decide (x = c)) = false := by
        intro x hx
        exact decide_eq_false fun hxc => hno (hxc ▸ hx)
      rw [length_pieces_of_forall hs,
        length_pieces_of_forall fun x hx => hs x (List.mem_filter.1 hx).1]
      by_cases hnil : s = []
      · simp [hnil]
      · rw [if_neg hnil]
        split <;> omega
    | some parts =>
      obtain ⟨a, b⟩ := parts
      obtain ⟨rfl, ha⟩ := cut?_eq_some_iff.1 hcut
      have hlen : (a ++ c :: b).length = n := hn
      rw [List.length_append, List.length_cons] at hlen
      have hfilter : (a ++ c :: b).filter keep = a.filter keep ++ c :: b.filter keep := by
        rw [List.filter_append, List.filter_cons_of_pos hkeep]
      have hiha := ih a.length (by omega) a rfl
      have hihb := ih b.length (by omega) b rfl
      rw [hfilter, pieces_append_cons _ _ (by simp), pieces_append_cons _ _ (by simp),
        List.length_append, List.length_append]
      omega

end SchemaArtifacts.Text
