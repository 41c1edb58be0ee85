import SchemaArtifacts.Session.Delivery

/-!
# Sessions

A session is a cache with those who use it together: callers who want texts stored and deliveries of
documents. What happens is a sequence of moves. Each is one step of one participant, of a write, or
of the cache itself, and any order of moves is a possible course of events.

## Main definitions

* `Session` — a cache, callers and deliveries
* `Move` — what can happen next
* `Session.play`, `Session.playAll` — one move, and a sequence of them
* `Session.Leads` — some sequence of moves leads from one session to another

## Main results

* `Session.length_callers_play`, `Session.length_deliveries_play` — nobody comes or goes
* `Session.Leads.refl`, `Session.Leads.trans` — sequences of moves compose
-/

namespace SchemaArtifacts

/-- A cache and those who use it together. -/
structure Session where
  cache : Cache
  callers : List Caller := []
  /-- The deliveries, in the order in which they begin. -/
  deliveries : List Delivery := []
  /-- How many deliveries may be under way together. -/
  limit : Nat := 20
  /-- The deliveries that have ended, in the order of their ends. -/
  ended : List Nat := []

/-- What can happen next in a session. -/
inductive Move where
  /-- A caller takes a step. -/
  | call (i : Nat)
  /-- A caller gives up. -/
  | giveUp (i : Nat)
  /-- The next delivery begins, if the limit allows it. -/
  | start
  /-- A delivery that has begun takes a step. -/
  | proceed (i : Nat)
  /-- A delivery is abandoned. -/
  | abandon (i : Nat)
  /-- A write takes a step. -/
  | write (id : Nat)
  /-- The cache takes note of the end of a write. -/
  | settle (id : Nat)
  /-- A write that has not begun is called off. -/
  | callOff (id : Nat)
  deriving Repr, DecidableEq

namespace Session

variable {s t u : Session}

/-- How many deliveries are under way. -/
def underWay (s : Session) : Nat := s.deliveries.countP Delivery.isUnderWay

/-- Replaces a delivery and notes its end. -/
def putDelivery (s : Session) (i : Nat) (d : Delivery) : Session :=
  { s with
    deliveries := s.deliveries.set i d
    ended := if d.result?.isSome && !s.ended.contains i then s.ended ++ [i] else s.ended }

/-- A delivery takes a step. -/
def stepDelivery (s : Session) (i : Nat) : Session :=
  match s.deliveries[i]? with
  | none => s
  | some d =>
    let (cache, d) := d.step s.cache
    { s with cache }.putDelivery i d

/-- What a move does. A move of someone who is not there does nothing. -/
def play (s : Session) : Move → Session
  | .call i =>
    match s.callers[i]? with
    | none => s
    | some caller =>
      let (cache, caller) := caller.step s.cache
      { s with cache, callers := s.callers.set i caller }
  | .giveUp i => { s with callers := s.callers.modify i Caller.giveUp }
  | .start =>
    if s.underWay < s.limit then s.stepDelivery (s.deliveries.findIdx Delivery.isReady) else s
  | .proceed i => if (s.deliveries[i]?.any Delivery.isReady) then s else s.stepDelivery i
  | .abandon i =>
    match s.deliveries[i]? with
    | none => s
    | some d => s.putDelivery i d.abandon
  | .write id => { s with cache := s.cache.advance id }
  | .settle id => { s with cache := s.cache.settle id }
  | .callOff id => { s with cache := s.cache.cancelWrite id }

/-- What a sequence of moves does. -/
def playAll (s : Session) (moves : List Move) : Session := moves.foldl play s

/-- Some sequence of moves leads from one session to another. -/
def Leads (s t : Session) : Prop := ∃ moves, s.playAll moves = t

/-- Nothing is on its way: no write, and nobody waits. -/
def Quiescent (s : Session) : Prop :=
  s.cache.Quiescent ∧ (∀ caller ∈ s.callers, caller.result?.isSome) ∧
    ∀ d ∈ s.deliveries, d.result?.isSome

@[simp] theorem playAll_nil : s.playAll [] = s := rfl

@[simp] theorem playAll_cons (m : Move) (moves : List Move) :
    s.playAll (m :: moves) = (s.play m).playAll moves := rfl

theorem playAll_append (moves others : List Move) :
    s.playAll (moves ++ others) = (s.playAll moves).playAll others :=
  List.foldl_append ..

theorem Leads.refl (s : Session) : s.Leads s := ⟨[], rfl⟩

theorem Leads.trans (h : s.Leads t) (h' : t.Leads u) : s.Leads u := by
  obtain ⟨moves, rfl⟩ := h
  obtain ⟨others, rfl⟩ := h'
  exact ⟨moves ++ others, playAll_append moves others⟩

@[simp] theorem length_deliveries_stepDelivery (i : Nat) :
    (s.stepDelivery i).deliveries.length = s.deliveries.length := by
  unfold stepDelivery
  split <;> simp [putDelivery]

@[simp] theorem length_deliveries_play (m : Move) :
    (s.play m).deliveries.length = s.deliveries.length := by
  cases m <;> simp only [play]
  case call i => split <;> rfl
  case start => split <;> simp
  case proceed i => split <;> simp
  case abandon i => split <;> simp [putDelivery]

@[simp] theorem callers_stepDelivery (i : Nat) : (s.stepDelivery i).callers = s.callers := by
  unfold stepDelivery
  split <;> rfl

@[simp] theorem length_callers_play (m : Move) :
    (s.play m).callers.length = s.callers.length := by
  cases m <;> simp only [play]
  case call i => split <;> simp
  case giveUp i => simp
  case start => split <;> simp
  case proceed i => split <;> simp
  case abandon i => split <;> rfl

end Session

end SchemaArtifacts
