import SchemaArtifacts.Cache.Store

/-!
# Callers

Whoever wants a text stored asks for it, waits for the write that stands for its path, and is served
with what the write ended in. Between two steps of a caller anything may happen elsewhere. A caller
who gives up is served with that, and the write goes on.

## Main definitions

* `Caller` — an address, a text, and how far the caller has come
* `Caller.step` — a caller takes the next step
* `Caller.awaited?` — the write that a caller waits for
* `Caller.giveUp` — a caller waits no longer
* `Caller.result?` — what a caller was served with

## Main results

* `Caller.step_of_served`, `Caller.giveUp_of_served` — a caller is served once
* `Caller.cache_step_of_waiting` — waiting does nothing to the cache
-/

namespace SchemaArtifacts

/-- How far a caller has come. -/
inductive Caller.Stage where
  | asking
  | waiting (id : Nat)
  | served (result : Except Failure AbsolutePath)

/-- Someone who wants a text stored. -/
structure Caller where
  address : Address
  content : String
  stage : Caller.Stage := .asking

namespace Caller

variable {caller : Caller} {c : Cache} {result : Except Failure AbsolutePath}

/-- The stage of a caller who has just been led to a write: one that has ended serves at once. -/
def join (c : Cache) (id : Nat) : Stage :=
  if c.hasEnded id then .served (c.outcome id) else .waiting id

/-- The stage of a caller who waits for a write: it serves once the cache has taken note of it. -/
def wait (c : Cache) (id : Nat) : Stage :=
  if c.isSettled id then .served (c.outcome id) else .waiting id

/-- A caller takes the next step. -/
def step (caller : Caller) (c : Cache) : Cache × Caller :=
  match caller.stage with
  | .asking =>
    let (ticket, c) := (Cache.request caller.address caller.content).run c
    let stage := match ticket with
      | .error e => .served (.error e)
      | .ok id => join c id
    (c, { caller with stage })
  | .waiting id => (c, { caller with stage := wait c id })
  | .served _ => (c, caller)

/-- The write that a caller waits for. -/
def awaited? (caller : Caller) : Option Nat :=
  match caller.stage with
  | .waiting id => some id
  | _ => none

/-- A caller who has not been served waits no longer. -/
def giveUp (caller : Caller) : Caller :=
  match caller.stage with
  | .served _ => caller
  | _ => { caller with stage := .served (.error .cancelled) }

/-- What a caller was served with. -/
def result? (caller : Caller) : Option (Except Failure AbsolutePath) :=
  match caller.stage with
  | .served result => some result
  | _ => none

theorem step_of_served (h : caller.stage = .served result) : caller.step c = (c, caller) := by
  simp [step, h]

theorem giveUp_of_served (h : caller.stage = .served result) : caller.giveUp = caller := by
  simp [giveUp, h]

theorem cache_step_of_waiting {id : Nat} (h : caller.stage = .waiting id) :
    (caller.step c).1 = c := by
  simp [step, h]

end Caller

end SchemaArtifacts
