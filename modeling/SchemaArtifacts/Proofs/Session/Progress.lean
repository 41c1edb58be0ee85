import SchemaArtifacts.Proofs.Cache.Work
import SchemaArtifacts.Proofs.Session.Lone
import SchemaArtifacts.Proofs.Session.Report
import SchemaArtifacts.Proofs.Session.Rounds

/-!
# A session comes to an end

A delivery has at most three steps before it waits for a write, and the write has a bounded number of
its own. Every orderly move leaves less to do, or changes nothing at all. As long as something is on
its way, there is a move in each round that leaves less. So no course of moves that change something
goes on for ever, and rounds come to a rest.

## Main definitions

* `Delivery.Stage.work`, `Session.work` — the steps that are left
* `Delivery.Stage.IsStill` — a delivery has ended, or waits for the end of a write to be noted
* `Session.IsGoing` — deliveries that are on their own and cannot go on for ever
* `Session.IsBusy` — a course of orderly moves each of which changes the session

## Main results

* `Session.IsGoing.work_play_lt` — an orderly move leaves less to do, or changes nothing
* `Session.IsGoing.exists_move` — there is something to do until all is over
* `Session.IsBusy.length_add_work_le` — a busy course has an end
* `Session.IsGoing.quiescent_finish` — finishing leaves nothing on its way
-/

namespace SchemaArtifacts

open Cache

namespace Delivery

variable {c c' : Cache} {d : Delivery} {doc : Document} {format : Format} {stage stage' : Stage}

/-- The steps that are left to a delivery at a stage, and those of a write that it may begin. -/
def Stage.work (steps : Nat) : Stage → Nat
  -- Before it stores, a delivery counts the steps of a write, the note of its end and its own steps.
  | .ready => steps + 5
  | .looking .. => steps + 4
  | .answered .. => steps + 3
  | .storing _ => 1
  | .ended _ => 0

theorem Stage.work_le (steps : Nat) (stage : Stage) : stage.work steps ≤ steps + 6 := by
  cases stage <;> simp [work]

/-- A delivery at a stage has nothing to do: it has ended, or waits for the end of a write to be
noted. -/
inductive Stage.IsStill (c : Cache) : Stage → Prop where
  | ended (result : Except Failure ExportStatus) : IsStill c (.ended result)
  | waiting (out content : String) (id : Nat) (unsettled : c.isSettled id = false) :
      IsStill c (.waiting out content id)

theorem step_of_isStill (h : d.stage.IsStill c) : d.step c = (c, d) := by
  obtain ⟨e, stage⟩ := d
  cases h with
  | ended result => rfl
  | waiting out content id unsettled =>
    simp only [step, Caller.step, Caller.wait, unsettled]
    rfl

theorem isReady_of_isStill (h : d.stage.IsStill c) : d.isReady = false := by
  unfold isReady
  generalize d.stage = stage at h
  cases h <;> rfl

/-- A step of a delivery leaves less to do, unless the delivery has nothing to do. -/
theorem Stage.Turn.work_lt (h : Turn c doc format stage c' stage') (hs : ¬ stage.IsStill c) :
    c'.work + stage'.work c.stepLimit < c.work + stage.work c.stepLimit := by
  have hserved : ∀ id, (Stage.served c id).work c.stepLimit = 0 := fun _ => rfl
  have hwaiting : ∀ out content id, (Stage.waiting out content id).work c.stepLimit = 1 :=
    fun _ _ _ => rfl
  cases h with
  | waits out content id unsettled => exact absurd (.waiting out content id unsettled) hs
  | rests result => exact absurd (.ended result) hs
  | begins out content path artifact text free =>
    rw [work_open_, hwaiting]
    simp only [work]
    omega
  | joins out content id job =>
    rw [hwaiting]
    simp only [work]
    omega
  | late out content id job =>
    rw [hserved]
    simp only [work]
    omega
  | served out content id job =>
    rw [hserved, hwaiting]
    omega
  | _ =>
    simp only [work]
    omega

end Delivery

namespace Session

variable {s : Session} {orders : List (Document × Format)} {moves : List Move} {m : Move}

/-- The steps that are left to the writes and the deliveries of a session. -/
def work (s : Session) : Nat :=
  s.cache.work + (s.deliveries.map fun d => d.stage.work s.cache.stepLimit).sum

/-- Deliveries that are on their own, may begin, and make a limited number of tries. -/
structure IsGoing (s : Session) (orders : List (Document × Format)) : Prop where
  runs : s.Runs orders
  noted : s.IsNoted
  callers : s.callers = []
  limit : 0 < s.limit
  limited : ¬ s.cache.backoff.IsPatient

theorem IsGoing.play (h : s.IsGoing orders) (m : Move) : (s.play m).IsGoing orders where
  runs := h.runs.play m
  noted := h.noted.play m
  callers := callers_playAll_eq_nil h.callers [m]
  limit := by
    rw [limit_play]
    exact h.limit
  limited := by
    rw [(operation_play s m).sameWorld.backoff]
    exact h.limited

theorem isGoing_playAll (h : s.IsGoing orders) (moves : List Move) :
    (s.playAll moves).IsGoing orders := by
  induction moves generalizing s with
  | nil => exact h
  | cons m moves ih => exact ih (h.play m)

theorem isGoing_ofDocuments {c : Cache} (h : c.Balanced) (hlimited : ¬ c.backoff.IsPatient)
    (format : Format) {limit : Nat} (hlimit : 0 < limit) (docs : List Document) :
    (ofDocuments c format limit docs).IsGoing (docs.map fun doc => (doc, format)) :=
  ⟨runs_ofDocuments h format limit docs, isNoted_ofDocuments c format limit docs, rfl, hlimit,
    hlimited⟩

/-! ## Moves leave less to do -/

/-- A step of a delivery that has nothing to do changes nothing. -/
theorem IsNoted.stepDelivery_of_isStill (h : s.IsNoted) {i : Nat} {d : Delivery}
    (hd : s.deliveries[i]? = some d) (hs : d.stage.IsStill s.cache) : s.stepDelivery i = s := by
  rw [stepDelivery_of_getElem? hd, Delivery.step_of_isStill hs]
  have hset : s.deliveries.set i d = s.deliveries := by
    obtain ⟨hi, rfl⟩ := List.getElem?_eq_some_iff.1 hd
    exact List.set_getElem_self hi
  have hended : (d.result?.isSome && !s.ended.contains i) = false := by
    cases hresult : d.result? with
    | none => rfl
    | some result =>
      have hmem := (h i).2 ⟨d, result, hd, hresult⟩
      simp [hmem]
  simp only [Session.putDelivery, hset, hended]
  rfl

theorem IsGoing.work_stepDelivery_lt (h : s.IsGoing orders) {i : Nat} {d : Delivery}
    (hd : s.deliveries[i]? = some d) (hs : ¬ d.stage.IsStill s.cache) :
    (s.stepDelivery i).work < s.work := by
  obtain ⟨order, ho⟩ := h.runs.exists_order hd
  obtain ⟨e, hstep, -⟩ := Delivery.step_of_brings (h.runs.brings i d order hd ho)
  have hturn := Delivery.Stage.turn_next h.runs.balanced (h.runs.sound i d order hd ho)
  have hlt := hturn.work_lt hs
  have hsteps : (d.step s.cache).1.stepLimit = s.cache.stepLimit := by
    unfold stepLimit
    rw [(Delivery.operation_step d s.cache).sameWorld.backoff]
  have hsum := sum_map_modify (fun _ => (d.step s.cache).2)
    (fun d => d.stage.work s.cache.stepLimit) hd
  rw [stepDelivery_of_getElem? hd]
  simp only [work, putDelivery, hsteps, List.set_eq_modify]
  rw [hstep] at hsum ⊢
  dsimp only at hsum hlt ⊢
  omega

/-- What leaves less to the writes leaves less to the session. -/
theorem work_lt_of_cache {c : Cache} (hlt : c.work < s.cache.work)
    (hbackoff : c.backoff = s.cache.backoff) : Session.work { s with cache := c } < s.work := by
  simp only [work, stepLimit, hbackoff]
  omega

/-- An orderly move leaves less to do, or changes nothing. -/
theorem IsGoing.work_play_lt (h : s.IsGoing orders) (hm : m.isOrderly) :
    (s.play m).work < s.work ∨ s.play m = s := by
  have hplays := s.plays_play m
  generalize s.play m = t at hplays ⊢
  cases hplays with
  | still => exact Or.inr rfl
  | delivers _ i d there =>
    by_cases hs : d.stage.IsStill s.cache
    · exact Or.inr (h.noted.stepDelivery_of_isStill there hs)
    · exact Or.inl (h.work_stepDelivery_lt there hs)
  | writes id =>
    refine (Cache.work_advance_lt_or (fun _ _ _ => h.limited) id).imp (fun hlt => ?_) fun hsame => ?_
    · exact work_lt_of_cache hlt (sameWorld_advance s.cache id).backoff
    · rw [hsame]
  | settles id =>
    refine (Cache.work_settle_lt_or s.cache id).imp (fun hlt => ?_) fun hsame => ?_
    · exact work_lt_of_cache hlt (sameWorld_settle s.cache id).backoff
    · rw [hsame]
  | calls | givesUp | abandons | callsOff => cases hm

/-- A course of orderly moves each of which changes the session. -/
def IsBusy (s : Session) : List Move → Prop
  | [] => True
  | m :: moves => m.isOrderly ∧ s.play m ≠ s ∧ (s.play m).IsBusy moves

/-- A busy course leaves less to do with each move. -/
theorem IsBusy.length_add_work_le (h : s.IsGoing orders) (hbusy : s.IsBusy moves) :
    moves.length + (s.playAll moves).work ≤ s.work := by
  induction moves generalizing s with
  | nil => exact Nat.le_of_eq (Nat.zero_add _)
  | cons m moves ih =>
    obtain ⟨hm, hne, hrest⟩ := hbusy
    have hlt := (h.work_play_lt hm).resolve_right hne
    have hle := ih (h.play m) hrest
    rw [playAll_cons, List.length_cons]
    omega

/-- No session has more to do than the rounds that it is given. -/
theorem work_le_roundLimit (s : Session) : s.work ≤ s.roundLimit := by
  have hjobs := s.cache.work_le
  have hdeliveries := List.sum_le_card_nsmul
    (s.deliveries.map fun d => d.stage.work s.cache.stepLimit) (s.cache.stepLimit + 6) fun n hn => by
      obtain ⟨d, -, rfl⟩ := List.mem_map.1 hn
      exact d.stage.work_le _
  simp only [List.length_map, nsmul_eq_mul, Nat.cast_id] at hdeliveries
  unfold work roundLimit
  rw [Nat.add_mul, Nat.add_mul]
  omega

/-! ## Something is left to do until all is over -/

/-- A delivery that is under way has something to do once all writes have ended and are noted. -/
theorem IsGoing.work_proceed_lt (h : s.IsGoing orders) (hcache : s.cache.Quiescent) {i : Nat}
    {d : Delivery} (hd : s.deliveries[i]? = some d) (hunder : d.isUnderWay) :
    (s.play (.proceed i)).work < s.work := by
  have hready : (s.deliveries[i]?.any Delivery.isReady) = false := by
    rw [hd]
    unfold Delivery.isUnderWay at hunder
    unfold Delivery.isReady
    cases hs : d.stage <;> simp_all
  simp only [Session.play, hready]
  refine h.work_stepDelivery_lt hd fun hstill => ?_
  obtain ⟨order, ho⟩ := h.runs.exists_order hd
  have hsound := h.runs.sound i d order hd ho
  unfold Delivery.isUnderWay at hunder
  generalize d.stage = stage at hunder hsound hstill
  cases hstill with
  | ended result => cases hunder
  | waiting out content id unsettled =>
    obtain ⟨_, job, hj, -⟩ := hsound.of_waiting rfl
    have hsettled := (hcache job (List.mem_of_getElem? hj)).2
    simp [isSettled, hj, hsettled] at unsettled

/-- Until all is over, some move of a round leaves less to do. -/
theorem IsGoing.exists_move (h : s.IsGoing orders) (hq : ¬ s.Quiescent) :
    ∃ m ∈ s.roundMoves, m.isOrderly ∧ (s.play m).work < s.work := by
  suffices hmove : ∃ m ∈ s.roundMoves, (s.play m).work < s.work by
    obtain ⟨m, hm, hlt⟩ := hmove
    exact ⟨m, hm, isOrderly_of_mem_roundMoves h.callers hm, hlt⟩
  unfold roundMoves
  by_cases hcache : s.cache.Quiescent
  · have hd : ∃ d ∈ s.deliveries, d.result? = none := by
      simpa [Quiescent, hcache, h.callers] using hq
    obtain ⟨d, hmem, hopen⟩ := hd
    have hproceed : ∀ e ∈ s.deliveries, e.isUnderWay → ∃ i < s.deliveries.length,
        (s.play (.proceed i)).work < s.work := by
      intro e he hunder
      obtain ⟨i, hi⟩ := List.getElem?_of_mem he
      exact ⟨i, (List.getElem?_eq_some_iff.1 hi).1, h.work_proceed_lt hcache hi hunder⟩
    by_cases hunder : ∃ e ∈ s.deliveries, e.isUnderWay
    · obtain ⟨e, he, hunder⟩ := hunder
      obtain ⟨i, hi, hlt⟩ := hproceed e he hunder
      exact ⟨.proceed i, by simp [hi], hlt⟩
    · -- Nobody is under way, so the limit lets the first that has not begun begin.
      have hidle : s.underWay < s.limit := by
        have hnone : s.underWay = 0 := List.countP_eq_zero.2 fun e he hu => hunder ⟨e, he, hu⟩
        rw [hnone]
        exact h.limit
      have hready : d.isReady := by
        have hnot : ¬ d.isUnderWay := fun hu => hunder ⟨d, hmem, hu⟩
        unfold Delivery.isUnderWay at hnot
        unfold Delivery.result? at hopen
        unfold Delivery.isReady
        cases hs : d.stage <;> simp_all
      have hlt := List.findIdx_lt_length_of_exists ⟨d, hmem, hready⟩
      have hfirst := List.findIdx_getElem (w := hlt)
      refine ⟨.start, ?_, ?_⟩
      · simp [List.ne_nil_of_mem hmem]
      · simp only [Session.play, if_pos hidle]
        refine h.work_stepDelivery_lt (List.getElem?_eq_getElem hlt) fun hstill => ?_
        rw [Delivery.isReady_of_isStill hstill] at hfirst
        cases hfirst
  · obtain ⟨id, hid, hlt⟩ := exists_work_lt (fun _ _ _ => h.limited) hcache
    rcases hlt with hlt | hlt
    · exact ⟨.write id, by simp [hid], work_lt_of_cache hlt (sameWorld_advance s.cache id).backoff⟩
    · exact ⟨.settle id, by simp [hid], work_lt_of_cache hlt (sameWorld_settle s.cache id).backoff⟩

/-! ## Rounds come to a rest -/

theorem comesToRest_isGoing (orders : List (Document × Format)) :
    ComesToRest (·.IsGoing orders) (fun m => m.isOrderly) work where
  keeps h _ := h.play _
  less h hm := h.work_play_lt hm
  round h _ hm := isOrderly_of_mem_roundMoves h.callers hm
  goes_on h hq := by
    obtain ⟨m, hm, -, hlt⟩ := h.exists_move hq
    exact ⟨m, hm, hlt⟩

/-- Finishing leaves nothing on its way. -/
theorem IsGoing.quiescent_finish (h : s.IsGoing orders) : s.finish.Quiescent := by
  have hturns := leadsOrderly_turns h.callers (fun p hp => isOrderly_of_mem_line h.callers hp)
    s.turnLimit
  exact (comesToRest_isGoing orders).quiescent_finish h hturns.1 s.work_le_roundLimit

theorem Quiescent.isIdle (h : s.Quiescent) : s.IsIdle := by
  intro d hd
  obtain ⟨result, hresult⟩ := Option.isSome_iff_exists.1 (h.2.2 d hd)
  exact ⟨result, Delivery.stage_of_result? hresult⟩

/-- Finishing is a course of orderly moves to the end of every delivery. -/
theorem IsGoing.exists_finish (h : s.IsGoing orders) : ∃ moves : List Move,
    (∀ m ∈ moves, m.isOrderly) ∧ s.playAll moves = s.finish ∧ (s.playAll moves).IsIdle := by
  obtain ⟨moves, hmoves, hfinish⟩ := leadsOrderly_finish h.callers
  refine ⟨moves, hmoves, hfinish, ?_⟩
  rw [hfinish]
  exact h.quiescent_finish.isIdle

end Session
end SchemaArtifacts
