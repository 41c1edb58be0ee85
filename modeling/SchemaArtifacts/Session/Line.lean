import SchemaArtifacts.Session.Basic

/-!
# Standing in line

One course of events among all: those who can move stand in a line. Whoever is in front takes a
turn, and whoever can move because of that goes to the end. The disk takes time: who waits for its
answer lets the line pass once before the turn that the answer brings.

## Main definitions

* `Turn` — whose turn it is
* `Session.movesOf` — what is done in a turn
* `Session.followers` — the turns that a turn leads to
* `Session.pass`, `Session.turns` — the line, from one turn to the next, until it is empty
* `Session.rounds` — everybody takes a step, again and again, until nothing is on its way
* `Session.finish` — the turns of the line, and then rounds

## Main results

* `Session.leads_finish` — all of this is done by moves
* `Session.rounds_of_quiescent`, `Session.rounds_of_not_quiescent` — rounds go on exactly as long as
  something is on its way
-/

namespace SchemaArtifacts

/-- Whose turn it is. -/
inductive Turn where
  /-- A caller asks, or is served. -/
  | caller (i : Nat)
  /-- The next delivery begins, if the limit allows it. -/
  | newcomer
  /-- A delivery goes on. -/
  | delivery (i : Nat)
  /-- A write begins a try. -/
  | try_ (id : Nat)
  /-- The disk answers a write. -/
  | answer (id : Nat)
  /-- The cache takes note of the end of a write. -/
  | note (id : Nat)
  deriving Repr, DecidableEq

/-- A place in the line: a turn, and how often the line passes before it. -/
structure Place where
  turn : Turn
  passes : Nat := 0
  deriving Repr, DecidableEq

namespace Session

variable {s t : Session}

/-- What is done in a turn. A delivery that begins asks the disk at once, and a write that has
rested begins its next try at once. -/
def movesOf (s : Session) : Turn → List Move
  | .caller i => [.call i]
  | .newcomer => [.start, .proceed (s.deliveries.findIdx Delivery.isReady)]
  | .delivery i => [.proceed i]
  | .try_ id =>
    (if s.cache.isResting id then [.write id] else []) ++
      if s.cache.isRefused id then [.write id] else []
  | .answer id => [.write id]
  | .note id => [.settle id]

/-- The turns of those who wait for a write. -/
def waiters (s : Session) (id : Nat) : List Turn :=
  ((List.range s.callers.length).filter fun i =>
      s.callers[i]?.any fun caller => caller.awaited? == some id).map .caller ++
    ((List.range s.deliveries.length).filter fun i =>
      s.deliveries[i]?.any fun d => d.awaited? == some id).map .delivery

/-- The places of a write that is under way, or those that its end leads to. -/
def placesOfWrite (s : Session) (id : Nat) : List Place :=
  match s.cache.jobs[id]? with
  | none => []
  | some job =>
    match job.stage with
    | .ready _ => [{ turn := .try_ id }]
    | .opening _ | .filling _ | .closing _ | .placing _ => [{ turn := .answer id, passes := 1 }]
    | .resting _ => [{ turn := .try_ id }]
    | .ended _ =>
      -- The cache takes note before those who wait can ask again.
      if job.settled then []
      else { turn := .note id } :: (s.waiters id).map fun turn => { turn, passes := 1 }

/-- The places that a step of a delivery leads to. The end of one lets the next begin. -/
def placesOfDelivery (s : Session) (i : Nat) : List Place :=
  match s.deliveries[i]?.map Delivery.stage with
  | some (.looking ..) | some (.answered ..) => [{ turn := .delivery i, passes := 1 }]
  | some (.ended _) => [{ turn := .newcomer }]
  | _ => []

/-- The first tries of the writes that are new in a session. -/
def newWrites (s t : Session) : List Place :=
  ((List.range t.cache.jobs.length).drop s.cache.jobs.length).map fun id => { turn := .try_ id }

/-- The places that a turn leads to, from the session before it to the one after it. -/
def followers (s t : Session) : Turn → List Place
  | .caller _ => newWrites s t
  | .newcomer =>
    newWrites s t ++ t.placesOfDelivery (s.deliveries.findIdx Delivery.isReady)
  | .delivery i => newWrites s t ++ t.placesOfDelivery i
  | .try_ id =>
    -- A try that is refused asks nothing of the disk and rests or ends at once.
    if s.cache.isRefused id then t.placesOfWrite id else [{ turn := .answer id, passes := 1 }]
  | .answer id => t.placesOfWrite id
  | .note _ => []

/-- The line of a session in which nothing is under way but what the writes are at. -/
def line (s : Session) : List Place :=
  ((List.range s.callers.length).filter fun i =>
      s.callers[i]?.any fun caller => caller.result?.isNone && caller.awaited?.isNone).map
        (fun i => { turn := .caller i }) ++
    (s.deliveries.filter Delivery.isReady).map (fun _ => { turn := .newcomer }) ++
    (List.range s.cache.jobs.length).flatMap s.placesOfWrite

/-- The session after the turn of a place, which is in front of the line, and the line then. -/
def pass (s : Session) (place : Place) (rest : List Place) : Session × List Place :=
  match place.passes with
  | passes + 1 => (s, rest ++ [{ place with passes }])
  | 0 =>
    let t := s.playAll (s.movesOf place.turn)
    (t, rest ++ followers s t place.turn)

/-- At most so many turns until the line is empty. -/
def turns (s : Session) (places : List Place) : Nat → Session
  | 0 => s
  | n + 1 =>
    match places with
    | [] => s
    | place :: rest => (s.pass place rest).1.turns (s.pass place rest).2 n

/-- Turns enough for all who are there and those who come after them: eleven for each try of a
write, and nine for whoever asks for it, waits for it and takes note of it. -/
def turnLimit (s : Session) : Nat :=
  (s.cache.jobs.length + s.deliveries.length + s.callers.length) * (3 * s.cache.stepLimit + 8)

/-- A step of everybody who is there. -/
def roundMoves (s : Session) : List Move :=
  (List.range s.callers.length).map .call ++
    s.deliveries.map (fun _ => .start) ++ (List.range s.deliveries.length).map .proceed ++
      (List.range s.cache.jobs.length).flatMap fun id => [.write id, .settle id]

instance (s : Session) : Decidable s.Quiescent := by
  unfold Quiescent Cache.Quiescent
  infer_instance

/-- Rounds of everybody's steps until nothing is on its way. -/
def rounds (s : Session) : Nat → Session
  | 0 => s
  | n + 1 => if s.Quiescent then s else (s.playAll s.roundMoves).rounds n

/-- Rounds enough: in each, somebody comes closer to an end. -/
def roundLimit (s : Session) : Nat :=
  (s.cache.jobs.length + s.deliveries.length + s.callers.length) * (s.cache.stepLimit + 6)

/-- The turns of the line, until it is empty, and then rounds, so that nobody can be left behind who
did not stand in the line. -/
def finish (s : Session) : Session := (s.turns s.line s.turnLimit).rounds s.roundLimit

theorem leads_playAll (s : Session) (moves : List Move) : s.Leads (s.playAll moves) := ⟨_, rfl⟩

theorem leads_pass (s : Session) (place : Place) (rest : List Place) :
    s.Leads (s.pass place rest).1 := by
  unfold pass
  split
  · exact .refl s
  · exact s.leads_playAll _

theorem leads_turns (s : Session) (places : List Place) (n : Nat) :
    s.Leads (s.turns places n) := by
  induction n generalizing s places with
  | zero => exact .refl s
  | succ n ih =>
    cases places with
    | nil => exact .refl s
    | cons place rest => exact (s.leads_pass place rest).trans (ih _ _)

theorem leads_rounds (s : Session) (n : Nat) : s.Leads (s.rounds n) := by
  induction n generalizing s with
  | zero => exact .refl s
  | succ n ih =>
    unfold rounds
    split
    · exact .refl s
    · exact (s.leads_playAll _).trans (ih _)

theorem leads_finish (s : Session) : s.Leads s.finish :=
  (s.leads_turns _ _).trans (leads_rounds _ _)

theorem rounds_of_quiescent (h : s.Quiescent) (n : Nat) : s.rounds n = s := by
  cases n with
  | zero => rfl
  | succ n => simp [rounds, h]

theorem rounds_of_not_quiescent (h : ¬ s.Quiescent) (n : Nat) :
    s.rounds (n + 1) = (s.playAll s.roundMoves).rounds n := by
  simp [rounds, h]

end Session

end SchemaArtifacts
