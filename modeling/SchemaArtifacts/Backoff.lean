import SchemaArtifacts.Number.Basic

/-!
# Waiting before another try

After a failed try one waits: twice as long after each further failure, up to a limit, and a little
more or less by chance.

## Main definitions

* `Backoff` — the first delay, the greatest, the number of further tries, and the share left to
  chance
* `Backoff.capped`, `Backoff.span` — the delay before chance, and how far chance can move it
* `Backoff.delay` — the delay after a failed try
* `Backoff.rest` — the delay, if it can be waited
* `Backoff.allows` — another try is made after a failed one
* `Backoff.tryLimit` — no more further tries than this are made
-/

namespace SchemaArtifacts

/-- How long to wait before another try. -/
structure Backoff where
  baseDelay : Number := .real (.ofDecimal false ⟨1, -1⟩)
  maxDelay : Number := .real (.ofDecimal false ⟨5, 0⟩)
  maxRetries : Number := .int 3
  jitter : Number := .real (.ofDecimal false ⟨25, -2⟩)

namespace Backoff

/-- The delay after try number `attempt`, before chance moves it. -/
def capped (b : Backoff) (attempt : Int) : Except Number.OutOfRange Number := do
  return Number.least (← b.baseDelay.mul (← Number.twoPow attempt)) b.maxDelay

/-- How far chance can move a delay. -/
def span (b : Backoff) (delay : Number) : Except Number.OutOfRange Number := delay.mul b.jitter

/-- A delay moved by a drawn number between zero and one: fully back at zero, fully on at one. -/
def moved (delay span draw : Number) : Except Number.OutOfRange Number := do
  return Number.greatest (.int 0) (← delay.add (← span.mul (← (← draw.mul (.int 2)).sub (.int 1))))

/-- The delay after try number `attempt` with its drawn number. -/
def delay (b : Backoff) (attempt : Int) (draw : Number) : Except Number.OutOfRange Number := do
  let d ← b.capped attempt
  moved d (← b.span d) draw

/-- The rest after try number `attempt`: the delay, unless it is too long to be told in seconds. -/
def rest (b : Backoff) (attempt : Int) (draw : Number) : Except Number.OutOfRange Number := do
  let d ← b.delay attempt draw
  discard d.toReal
  return d

/-- Nothing is drawn when the delay cannot even be computed before chance moves it. -/
def draws (b : Backoff) (attempt : Int) : Bool :=
  match b.capped attempt with
  | .error _ => false
  | .ok d =>
    match b.span d with
    | .error _ => false
    | .ok _ => true

/-- Try number `attempt`, counted from zero, may be followed by another. -/
def allows (b : Backoff) (attempt : Int) : Bool := (Number.int attempt).lt b.maxRetries

/-- How many further tries stand for tries without end. -/
def patience : Nat := 1048576

/-- No try from this number on is followed by another; where there is no such number, no later try
is looked at. -/
def tryLimit (b : Backoff) : Nat :=
  match b.maxRetries with
  | .real (.infinity false) => patience
  | n => n.toRat?.elim 0 fun x => (-(-x).floor).toNat

end Backoff

end SchemaArtifacts
