import Mathlib.Logic.Function.Iterate
import SchemaArtifacts.Proofs.Session.Durable
import SchemaArtifacts.Session.Run

/-!
# A delivery on its own

In a session of one delivery there is always one thing to do next, if anything is to come of it: the
delivery goes on as long as it waits for nothing, then its write does, and then the cache takes note.
Done again and again, this is what becomes of a document that is exported on its own.

## Main definitions

* `Session.nextMove`, `Session.onward` — what is done next in a session of one delivery
* `Session.IsLone` — a session of one delivery, and how far the delivery has come

## Main results

* `Session.IsLone.exists_onward` — the delivery takes a step when it waits for nothing
* `Session.IsLone.onward_of_inFlight`, `Session.IsLone.onward_of_ended` — otherwise its write does,
  or the cache takes note
* `Session.IsLone.onward_iterate_of_over` — once it has ended, nothing changes
-/

namespace SchemaArtifacts

open Cache

namespace Session

/-- What is done next in a session of one delivery. -/
def nextMove (s : Session) : Move :=
  match s.deliveries with
  | [] => .start
  | d :: _ =>
    match d.awaited? with
    | none => if d.isReady then .start else .proceed 0
    | some id =>
      if s.cache.hasEnded id then if s.cache.isSettled id then .proceed 0 else .settle id
      else .write id

/-- A session of one delivery goes on. -/
def onward (s : Session) : Session := s.play s.nextMove

theorem isOrderly_nextMove (s : Session) : s.nextMove.isOrderly := by
  unfold nextMove
  split
  · rfl
  · split
    · split <;> rfl
    · split
      · split <;> rfl
      · rfl

/-- Going on is a sequence of moves. -/
theorem exists_moves_of_onward (s : Session) (n : Nat) :
    ∃ moves : List Move, (∀ m ∈ moves, m.isOrderly) ∧ s.playAll moves = onward^[n] s := by
  induction n generalizing s with
  | zero => exact ⟨[], by simp, rfl⟩
  | succ n ih =>
    obtain ⟨moves, horderly, hplay⟩ := ih s.onward
    refine ⟨s.nextMove :: moves, fun m hm => ?_, ?_⟩
    · rcases List.mem_cons.1 hm with rfl | hm
      · exact isOrderly_nextMove s
      · exact horderly m hm
    · rw [playAll_cons, Function.iterate_succ_apply]
      exact hplay

theorem limit_stepDelivery (s : Session) (i : Nat) : (s.stepDelivery i).limit = s.limit := by
  unfold stepDelivery
  split <;> rfl

theorem limit_play (s : Session) (m : Move) : (s.play m).limit = s.limit := by
  have hplays := s.plays_play m
  generalize s.play m = t at hplays ⊢
  cases hplays with
  | delivers _ i => exact limit_stepDelivery s i
  | _ => rfl

/-- A session of one delivery, of a document in a format, with a world like that of a cache. -/
structure IsLone (c : Cache) (doc : Document) (format : Format) (stage : Delivery.Stage)
    (t : Session) : Prop where
  steady : t.IsSteady [(doc, format)]
  world : c.SameWorld t.cache
  limit : t.limit = 1
  delivery : ∃ d, t.deliveries = [d] ∧ d.stage = stage

variable {c : Cache} {doc : Document} {format : Format} {stage : Delivery.Stage} {t : Session}

theorem isLone_ofDocuments (hs : c.Steady) (hfresh : c.jobs = [])
    (hformat : format = .typeScript ∨ format = .javaScript) :
    (ofDocuments c format 1 [doc]).IsLone c doc format .ready := by
  have hsteady : (ofOrders c 1 [(doc, format)]).IsSteady [(doc, format)] :=
    isSteady_ofOrders hs (by simp [hfresh]) 1 (by simpa [AreKnown] using hformat)
  exact ⟨hsteady, .refl c, rfl, _, rfl, rfl⟩

/-- The delivery of a lone session takes one of its steps. -/
theorem IsLone.stepDelivery (h : t.IsLone c doc format stage) (hplay : t.onward = t.stepDelivery 0) :
    ∃ stage', Delivery.Stage.Turn t.cache doc format stage t.onward.cache stage' ∧
      t.onward.IsLone c doc format stage' := by
  obtain ⟨d, hd, rfl⟩ := h.delivery
  have hget : t.deliveries[0]? = some d := by rw [hd]; rfl
  have hbrings := h.steady.runs.brings 0 d _ hget rfl
  obtain ⟨e, hstep, -⟩ := Delivery.step_of_brings hbrings
  have hturn := Delivery.Stage.turn_next h.steady.runs.balanced (h.steady.runs.sound 0 d _ hget rfl)
  have honward : t.onward.cache = (d.stage.next doc format t.cache).1 ∧
      t.onward.deliveries = [⟨e, (d.stage.next doc format t.cache).2⟩] := by
    rw [hplay, stepDelivery_of_getElem? hget, hstep]
    exact ⟨rfl, by simp [putDelivery, hd]⟩
  refine ⟨(d.stage.next doc format t.cache).2, by rw [honward.1]; exact hturn, ?_⟩
  exact ⟨h.steady.move (isOrderly_nextMove t),
    h.world.trans (operation_play t t.nextMove).sameWorld,
    (limit_play t t.nextMove).trans h.limit, _, honward.2, rfl⟩

/-- A delivery that waits for nothing takes a step. -/
theorem IsLone.exists_onward (h : t.IsLone c doc format stage)
    (hfree : ∀ out content id, stage = .waiting out content id →
      t.cache.hasEnded id ∧ t.cache.isSettled id) :
    ∃ stage', Delivery.Stage.Turn t.cache doc format stage t.onward.cache stage' ∧
      t.onward.IsLone c doc format stage' := by
  apply h.stepDelivery
  obtain ⟨d, hd, rfl⟩ := h.delivery
  have hget : t.deliveries[0]? = some d := by rw [hd]; rfl
  have hsound := h.steady.runs.sound 0 d _ hget rfl
  unfold onward nextMove
  rw [hd]
  dsimp only
  generalize hstage : d.stage = stage at hsound
  cases hsound with
  | ready =>
    have hready : d.isReady := by simp [Delivery.isReady, hstage]
    have hidle : t.underWay < t.limit := by
      simp [underWay, hd, h.limit, Delivery.isUnderWay, hstage]
    have hfirst : t.deliveries.findIdx Delivery.isReady = 0 := by
      simp [hd, List.findIdx_cons, hready]
    simp only [Delivery.awaited?, hstage, hready, if_true, play, if_pos hidle, hfirst]
  | waiting out content id =>
    obtain ⟨hended, hsettled⟩ := hfree out content id hstage
    have hawaited : d.awaited? = some id := by
      simp [Delivery.awaited?, hstage, Delivery.Stage.waiting, Caller.awaited?]
    have hready : ¬ t.deliveries[0]?.any Delivery.isReady := by
      simp [hd, Delivery.isReady, hstage, Delivery.Stage.waiting]
    simp only [hawaited, hended, hsettled, if_true, play, if_neg hready]
  | _ =>
    have hawaited : d.awaited? = none := by simp [Delivery.awaited?, hstage]
    have hready : d.isReady = false := by simp [Delivery.isReady, hstage]
    have hready' : ¬ t.deliveries[0]?.any Delivery.isReady := by simp [hd, hready]
    simp only [hawaited, hready, Bool.false_eq_true, if_false, play, if_neg hready']

theorem IsLone.of_deliveries (h : t.IsLone c doc format stage)
    (hsame : t.onward.deliveries = t.deliveries) : t.onward.IsLone c doc format stage := by
  obtain ⟨d, hd, hstage⟩ := h.delivery
  exact ⟨h.steady.move (isOrderly_nextMove t),
    h.world.trans (operation_play t t.nextMove).sameWorld,
    (limit_play t t.nextMove).trans h.limit, d, hsame.trans hd, hstage⟩

variable {out content : String} {id : Nat} {job : Job}

theorem IsLone.awaited? (h : t.IsLone c doc format (.waiting out content id)) :
    ∃ d, t.deliveries = [d] ∧ d.awaited? = some id := by
  obtain ⟨d, hd, hstage⟩ := h.delivery
  exact ⟨d, hd, by simp [Delivery.awaited?, hstage, Delivery.Stage.waiting, Caller.awaited?]⟩

/-- A write that is waited for takes a step. -/
theorem IsLone.onward_of_inFlight (h : t.IsLone c doc format (.waiting out content id))
    (hj : t.cache.jobs[id]? = some job) (hf : job.stage.inFlight) :
    t.onward.cache = t.cache.advance id ∧
      t.onward.IsLone c doc format (.waiting out content id) := by
  obtain ⟨d, hd, hawaited⟩ := h.awaited?
  have hended : t.cache.hasEnded id = false := by rw [Delivery.hasEnded_iff hj, hf, Bool.not_true]
  have honward : t.onward = t.play (.write id) := by
    unfold onward nextMove
    rw [hd]
    simp only [hawaited, hended, Bool.false_eq_true, if_false]
  exact ⟨by rw [honward]; rfl, h.of_deliveries (by rw [honward]; rfl)⟩

/-- The cache takes note of the end of the write. -/
theorem IsLone.onward_of_ended (h : t.IsLone c doc format (.waiting out content id))
    (hj : t.cache.jobs[id]? = some job) (hended : job.stage.inFlight = false)
    (hs : job.settled = false) : t.onward.cache = t.cache.settle id ∧
      t.onward.IsLone c doc format (.waiting out content id) := by
  obtain ⟨d, hd, hawaited⟩ := h.awaited?
  have hended : t.cache.hasEnded id := by rw [Delivery.hasEnded_iff hj, hended, Bool.not_false]
  have hsettled : t.cache.isSettled id = false := by simp [isSettled, hj, hs]
  have honward : t.onward = t.play (.settle id) := by
    unfold onward nextMove
    rw [hd]
    simp only [hawaited, hended, hsettled, Bool.false_eq_true, if_true, if_false]
  exact ⟨by rw [honward]; rfl, h.of_deliveries (by rw [honward]; rfl)⟩

variable {result : Except Failure ExportStatus}

theorem IsLone.onward_of_over (h : t.IsLone c doc format (.ended result)) :
    t.onward.cache = t.cache ∧ t.onward.IsLone c doc format (.ended result) := by
  obtain ⟨stage', hturn, hlone⟩ := h.exists_onward fun _ _ _ hstage => by cases hstage
  generalize t.onward.cache = c' at hturn ⊢
  cases hturn with
  | rests => exact ⟨rfl, hlone⟩

/-- Once the delivery has ended, nothing changes. -/
theorem IsLone.onward_iterate_of_over (h : t.IsLone c doc format (.ended result)) (n : Nat) :
    (onward^[n] t).cache = t.cache ∧ (onward^[n] t).IsLone c doc format (.ended result) := by
  induction n with
  | zero => exact ⟨rfl, h⟩
  | succ n ih =>
    rw [Function.iterate_succ_apply']
    obtain ⟨hcache, hlone⟩ := ih.2.onward_of_over
    exact ⟨hcache.trans ih.1, hlone⟩

theorem IsLone.stage_unique (h : t.IsLone c doc format stage) {stage' : Delivery.Stage}
    (h' : t.IsLone c doc format stage') : stage' = stage := by
  obtain ⟨d, hd, rfl⟩ := h.delivery
  obtain ⟨d', hd', rfl⟩ := h'.delivery
  cases hd.symm.trans hd'
  rfl

/-- A delivery on its own ends in one way. -/
theorem IsLone.over_unique {n m : Nat} {result' : Except Failure ExportStatus}
    (h : (onward^[n] t).IsLone c doc format (.ended result))
    (h' : (onward^[m] t).IsLone c doc format (.ended result')) :
    result' = result ∧ (onward^[m] t).cache = (onward^[n] t).cache := by
  have hlater : ∀ {n m : Nat} {result result' : Except Failure ExportStatus}, n ≤ m →
      (onward^[n] t).IsLone c doc format (.ended result) →
      (onward^[m] t).IsLone c doc format (.ended result') →
      result' = result ∧ (onward^[m] t).cache = (onward^[n] t).cache := by
    intro n m result result' hle h h'
    obtain ⟨k, rfl⟩ := Nat.exists_eq_add_of_le hle
    rw [Nat.add_comm, Function.iterate_add_apply] at h' ⊢
    obtain ⟨hcache, hlone⟩ := h.onward_iterate_of_over k
    exact ⟨Delivery.Stage.ended.inj (hlone.stage_unique h'), hcache⟩
  rcases Nat.le_total n m with hle | hle
  · exact hlater hle h h'
  · obtain ⟨hresult, hcache⟩ := hlater hle h' h
    exact ⟨hresult.symm, hcache.symm⟩

end Session
end SchemaArtifacts
