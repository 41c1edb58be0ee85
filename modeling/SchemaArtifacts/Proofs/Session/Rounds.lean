import SchemaArtifacts.Proofs.Session.Finish

/-!
# Rounds come to a rest

In a round everybody takes a step. If no step leaves more to do, and some step of each round leaves
less as long as something is on its way, then as many rounds as there is left to do are enough. What is
on its way, and what counts as left to do, differs from one kind of session to another.

## Main definitions

* `Move.isCalm` — nobody gives up and nothing is called off
* `Session.LeadsCalmly` — some sequence of calm moves leads from one session to another
* `Session.ComesToRest` — sessions of a kind whose moves leave less to do

## Main results

* `Session.leadsCalmly_turns`, `Session.leadsCalmly_rounds` — finishing is a sequence of calm moves
* `Session.ComesToRest.quiescent_finish` — finishing leaves nothing on its way
-/

namespace SchemaArtifacts

/-- Nobody gives up and nothing is called off. -/
def Move.isCalm : Move → Bool
  | .call _ | .start | .proceed _ | .write _ | .settle _ => true
  | .giveUp _ | .abandon _ | .callOff _ => false

namespace Session

variable {s t u : Session} {m : Move} {moves : List Move}

/-! ## Calm moves -/

/-- Some sequence of calm moves leads from one session to another. -/
def LeadsCalmly (s t : Session) : Prop :=
  ∃ moves : List Move, (∀ m ∈ moves, m.isCalm) ∧ s.playAll moves = t

theorem LeadsCalmly.refl (s : Session) : s.LeadsCalmly s := ⟨[], by simp, rfl⟩

theorem LeadsCalmly.trans (h : s.LeadsCalmly t) (h' : t.LeadsCalmly u) : s.LeadsCalmly u := by
  obtain ⟨moves, hcalm, rfl⟩ := h
  obtain ⟨others, hcalm', rfl⟩ := h'
  exact ⟨moves ++ others, List.forall_mem_append.2 ⟨hcalm, hcalm'⟩, playAll_append moves others⟩

theorem isCalm_of_mem_movesOf {turn : SchemaArtifacts.Turn} (h : m ∈ s.movesOf turn) : m.isCalm := by
  cases turn with
  | newcomer =>
    simp only [movesOf, List.mem_cons, List.not_mem_nil, or_false] at h
    rcases h with rfl | rfl <;> rfl
  | try_ id =>
    simp only [movesOf, List.mem_append] at h
    rcases h with h | h <;> split at h <;> simp_all [Move.isCalm]
  | _ =>
    obtain rfl := List.mem_singleton.1 h
    rfl

theorem isCalm_of_mem_roundMoves (h : m ∈ s.roundMoves) : m.isCalm := by
  simp only [roundMoves, List.mem_append, List.mem_map, List.mem_flatMap, List.mem_cons,
    List.not_mem_nil, or_false] at h
  rcases h with ((⟨i, -, rfl⟩ | ⟨d, -, rfl⟩) | ⟨i, -, rfl⟩) | ⟨id, -, rfl | rfl⟩ <;> rfl

theorem leadsCalmly_pass (s : Session) (place : Place) (rest : List Place) :
    s.LeadsCalmly (s.pass place rest).1 := by
  unfold pass
  split
  · exact .refl s
  · exact ⟨_, fun m hm => isCalm_of_mem_movesOf hm, rfl⟩

theorem leadsCalmly_turns (s : Session) (places : List Place) (n : Nat) :
    s.LeadsCalmly (s.turns places n) := by
  induction n generalizing s places with
  | zero => exact .refl s
  | succ n ih =>
    cases places with
    | nil => exact .refl s
    | cons place rest => exact (s.leadsCalmly_pass place rest).trans (ih _ _)

theorem leadsCalmly_rounds (s : Session) (n : Nat) : s.LeadsCalmly (s.rounds n) := by
  induction n generalizing s with
  | zero => exact .refl s
  | succ n ih =>
    unfold rounds
    split
    · exact .refl s
    · exact .trans ⟨_, fun m hm => isCalm_of_mem_roundMoves hm, rfl⟩ (ih _)

/-! ## Less and less to do -/

/-- Sessions of a kind, with what is left to do in them. A fit move leads to a session of the kind and
leaves less to do, or changes nothing; and until nothing is on its way, a round has a move that leaves
less. -/
structure ComesToRest (kind : Session → Prop) (fit : Move → Prop) (work : Session → Nat) : Prop where
  keeps : ∀ {s m}, kind s → fit m → kind (s.play m)
  less : ∀ {s m}, kind s → fit m → work (s.play m) < work s ∨ s.play m = s
  round : ∀ {s}, kind s → ∀ m ∈ s.roundMoves, fit m
  goes_on : ∀ {s}, kind s → ¬ s.Quiescent → ∃ m ∈ s.roundMoves, work (s.play m) < work s

variable {kind : Session → Prop} {fit : Move → Prop} {work : Session → Nat}

theorem ComesToRest.playAll (h : ComesToRest kind fit work) (hs : kind s)
    (hmoves : ∀ m ∈ moves, fit m) : kind (s.playAll moves) := by
  induction moves generalizing s with
  | nil => exact hs
  | cons m moves ih =>
    obtain ⟨hm, hrest⟩ := List.forall_mem_cons.1 hmoves
    exact ih (h.keeps hs hm) hrest

/-- Fit moves leave less to do, or none of them changes anything. -/
theorem ComesToRest.work_playAll_lt (h : ComesToRest kind fit work) (hs : kind s)
    (hmoves : ∀ m ∈ moves, fit m) :
    work (s.playAll moves) < work s ∨ (∀ m ∈ moves, s.play m = s) ∧ s.playAll moves = s := by
  induction moves generalizing s with
  | nil => exact Or.inr ⟨by simp, rfl⟩
  | cons m moves ih =>
    obtain ⟨hm, hrest⟩ := List.forall_mem_cons.1 hmoves
    have hlater := ih (h.keeps hs hm) hrest
    rw [playAll_cons]
    rcases h.less hs hm with hlt | hsame
    · refine Or.inl (Nat.lt_of_le_of_lt ?_ hlt)
      rcases hlater with hlt' | ⟨-, hsame'⟩
      · exact Nat.le_of_lt hlt'
      · exact Nat.le_of_eq (congrArg work hsame')
    · rw [hsame] at hlater ⊢
      exact hlater.imp_right fun ⟨hall, hend⟩ => ⟨List.forall_mem_cons.2 ⟨hsame, hall⟩, hend⟩

theorem ComesToRest.work_playAll_le (h : ComesToRest kind fit work) (hs : kind s)
    (hmoves : ∀ m ∈ moves, fit m) : work (s.playAll moves) ≤ work s := by
  rcases h.work_playAll_lt hs hmoves with hlt | ⟨-, hsame⟩
  · exact Nat.le_of_lt hlt
  · exact Nat.le_of_eq (congrArg work hsame)

/-- As many rounds as there is left to do are enough. -/
theorem ComesToRest.quiescent_rounds (h : ComesToRest kind fit work) (hs : kind s) {n : Nat}
    (hwork : work s ≤ n) : (s.rounds n).Quiescent := by
  induction n generalizing s with
  | zero =>
    by_contra hq
    obtain ⟨m, -, hlt⟩ := h.goes_on hs hq
    omega
  | succ n ih =>
    by_cases hq : s.Quiescent
    · rwa [rounds_of_quiescent hq]
    · rw [rounds_of_not_quiescent hq]
      refine ih (h.playAll hs (h.round hs)) ?_
      -- If no move of the round changed anything, neither would the one that leaves less.
      obtain ⟨m, hm, hlt⟩ := h.goes_on hs hq
      rcases h.work_playAll_lt hs (h.round hs) with hless | ⟨hall, -⟩
      · omega
      · rw [hall m hm] at hlt
        omega

/-- If the turns of the line are fit moves, finishing leaves nothing on its way. -/
theorem ComesToRest.quiescent_finish (h : ComesToRest kind fit work) (hs : kind s)
    (hturns : ∃ moves : List Move, (∀ m ∈ moves, fit m) ∧
      s.playAll moves = s.turns s.line s.turnLimit)
    (hwork : work s ≤ s.roundLimit) : s.finish.Quiescent := by
  obtain ⟨moves, hmoves, hline⟩ := hturns
  unfold finish
  rw [← hline]
  exact h.quiescent_rounds (h.playAll hs hmoves) (Nat.le_trans (h.work_playAll_le hs hmoves) hwork)

end Session
end SchemaArtifacts
