import SchemaArtifacts.Proofs.Session.Asking

/-!
# A caller gives up

A caller who waits has no part in what happens any more. So when the caller gives up, the same moves lead
to the same session as if the caller had gone on waiting, but for what this caller was served with.

## Main definitions

* `Session.ButFor` — two sessions are the same, but one caller of the second has given up

## Main results

* `Session.butFor_giveUp` — so it is when a caller gives up who waits
* `Session.ButFor.playAll` — and so it stays, whatever is done
-/

namespace SchemaArtifacts

/-- A caller takes a step or gives up. -/
def Move.isOfCaller : Move → Bool
  | .call _ | .giveUp _ => true
  | _ => false

namespace Session

variable {s t : Session} {i j id : Nat} {caller : Caller}

/-- Two sessions are the same, but one caller of the second has given up, who does not ask any more in
the first. -/
structure ButFor (i : Nat) (s t : Session) : Prop where
  same : t = { s with callers := t.callers }
  others : ∀ j, j ≠ i → t.callers[j]? = s.callers[j]?
  waits : ∃ caller, s.callers[i]? = some caller ∧ caller.stage ≠ .asking
  gone : ∃ caller, t.callers[i]? = some caller ∧ caller.stage = .served (.error .cancelled)

theorem ButFor.cache (h : ButFor i s t) : t.cache = s.cache := by rw [h.same]

theorem ButFor.answer?_of_ne (h : ButFor i s t) (hj : j ≠ i) : t.answer? j = s.answer? j := by
  rw [answer?, h.others j hj, answer?]

theorem ButFor.answer? (h : ButFor i s t) : t.answer? i = some (.error .cancelled) := by
  obtain ⟨caller, hcaller, hstage⟩ := h.gone
  rw [Session.answer?, hcaller, Option.bind_some, Caller.result?, hstage]

theorem butFor_giveUp (hi : s.callers[i]? = some caller) (hs : caller.stage = .waiting id) :
    ButFor i s (s.play (.giveUp i)) where
  same := rfl
  others j hj := by simp [play, hj.symm]
  waits := ⟨caller, hi, by simp [hs]⟩
  gone := ⟨caller.giveUp, by simp [play, hi], by simp [Caller.giveUp, hs]⟩

/-- A caller takes a step, in both sessions. -/
theorem ButFor.call (h : ButFor i s t) (j : Nat) : ButFor i (s.play (.call j)) (t.play (.call j)) := by
  obtain ⟨caller, hcaller, hstage⟩ := h.waits
  obtain ⟨gone, hgone, hserved⟩ := h.gone
  by_cases hij : j = i
  · subst hij
    have hcache := Caller.cache_step_of_ne_asking (c := s.cache) hstage
    have hlt := (List.getElem?_eq_some_iff.1 hcaller).1
    have hstep : t.play (.call j) = t := by
      obtain ⟨hlt', rfl⟩ := List.getElem?_eq_some_iff.1 hgone
      simp only [play, hgone, Caller.step_of_served hserved, List.set_getElem_self]
    rw [hstep]
    simp only [play, hcaller, hcache]
    refine ⟨h.same, fun k hk => ?_, ⟨_, List.getElem?_set_self hlt, ?_⟩, gone, hgone, hserved⟩
    · rw [List.getElem?_set_ne hk.symm, h.others k hk]
    · exact caller.step_ne_asking s.cache
  · have hsame := h.others j hij
    cases hj : s.callers[j]? with
    | none =>
      have hplay : s.play (.call j) = s := by simp only [play, hj]
      have hplay' : t.play (.call j) = t := by simp only [play, hsame, hj]
      rwa [hplay, hplay']
    | some other =>
      simp only [play, hj, hsame, h.cache]
      refine ⟨?_, fun k hk => ?_, ⟨caller, ?_, hstage⟩, gone, ?_, hserved⟩
      · rw [h.same]
      · by_cases hk' : j = k
        · subst hk'
          rw [List.getElem?_set_self (List.getElem?_eq_some_iff.1 hj).1,
            List.getElem?_set_self (List.getElem?_eq_some_iff.1 (hsame.trans hj)).1]
        · rw [List.getElem?_set_ne hk', List.getElem?_set_ne hk', h.others k hk]
      · rw [List.getElem?_set_ne hij, hcaller]
      · rw [List.getElem?_set_ne hij, hgone]

/-- A caller gives up, in both sessions. -/
theorem ButFor.giveUp (h : ButFor i s t) (j : Nat) :
    ButFor i (s.play (.giveUp j)) (t.play (.giveUp j)) := by
  obtain ⟨caller, hcaller, hstage⟩ := h.waits
  obtain ⟨gone, hgone, hserved⟩ := h.gone
  have hkept : caller.giveUp.stage ≠ .asking := by
    unfold Caller.giveUp
    split <;> simp_all
  refine ⟨?_, fun k hk => ?_, ?_, ?_⟩
  · simp only [play]
    rw [h.same]
  · simp only [play, List.getElem?_modify, h.others k hk]
  · simp only [play, List.getElem?_modify, hcaller]
    split
    · exact ⟨_, rfl, hkept⟩
    · exact ⟨caller, rfl, hstage⟩
  · simp only [play, List.getElem?_modify, hgone]
    split
    · exact ⟨gone.giveUp, rfl, by rw [Caller.giveUp_of_served hserved, hserved]⟩
    · exact ⟨gone, rfl, hserved⟩

/-- What neither lets a caller step nor has one give up looks at no caller. -/
theorem ButFor.of_play (h : ButFor i s t) {m : Move} (hcallers : (s.play m).callers = s.callers)
    (hplay : t.play m = { s.play m with callers := t.callers }) : ButFor i (s.play m) (t.play m) := by
  have hsame : (t.play m).callers = t.callers := by rw [hplay]
  refine ⟨by rw [hsame, hplay], fun j hj => ?_, ?_, ?_⟩
  · rw [hsame, hcallers]
    exact h.others j hj
  · rw [hcallers]
    exact h.waits
  · rw [hsame]
    exact h.gone

theorem stepDelivery_of_callers (s : Session) (callers : List Caller) (i : Nat) :
    Session.stepDelivery { s with callers } i = { s.stepDelivery i with callers } := by
  unfold stepDelivery
  dsimp only
  split <;> rfl

/-- What nobody of the callers does looks at no caller, and does nothing to them. -/
theorem play_of_callers {m : Move} (hm : m.isOfCaller = false) (s : Session)
    (callers : List Caller) : Session.play { s with callers } m = { s.play m with callers } := by
  cases m with
  | start =>
    have hunder : underWay { s with callers } = s.underWay := rfl
    by_cases hroom : s.underWay < s.limit
    · simp only [Session.play, hunder, if_pos hroom, stepDelivery_of_callers]
    · simp only [Session.play, hunder, if_neg hroom]
  | proceed i =>
    by_cases hready : s.deliveries[i]?.any Delivery.isReady
    · simp only [Session.play, if_pos hready]
    · simp only [Session.play, if_neg hready, stepDelivery_of_callers]
  | abandon i =>
    simp only [Session.play]
    split <;> rfl
  | write | settle | callOff => rfl
  | call | giveUp => cases hm

theorem callers_play {m : Move} (hm : m.isOfCaller = false) (s : Session) :
    (s.play m).callers = s.callers := by
  have hplays := s.plays_play m
  generalize s.play m = t at hplays ⊢
  cases hplays with
  | delivers _ i => exact callers_stepDelivery i
  | calls | givesUp => cases hm
  | _ => rfl

theorem ButFor.play (h : ButFor i s t) (m : Move) : ButFor i (s.play m) (t.play m) := by
  cases hm : m.isOfCaller with
  | true =>
    cases m with
    | call j => exact h.call j
    | giveUp j => exact h.giveUp j
    | _ => cases hm
  | false =>
    refine h.of_play (callers_play hm s) ?_
    rw [h.same]
    exact play_of_callers hm s t.callers

theorem ButFor.playAll (h : ButFor i s t) (moves : List Move) :
    ButFor i (s.playAll moves) (t.playAll moves) := by
  induction moves generalizing s t with
  | nil => exact h
  | cons m moves ih => exact ih (h.play m)

end Session
end SchemaArtifacts
