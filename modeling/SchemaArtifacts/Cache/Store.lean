import SchemaArtifacts.Cache.Job
import SchemaArtifacts.Export.Shelf

/-!
# Storing

## Main definitions

* `Cache.hasEnded`, `Cache.isSettled` — a write has ended, and the cache has taken note of it
* `Cache.isRefused`, `Cache.isResting` — a write is kept from its next try, or waits for it
* `Cache.drain` — a write runs until it has ended
* `Cache.outcome` — what someone who waits for a write gets
* `Cache.store` — a text is stored and its write waited for
* `Cache.shelf` — the cache as a shelf

## Main results

* `Cache.run_of_hasEnded`, `Cache.run_of_not_hasEnded` — a write takes steps until it has ended
-/

namespace SchemaArtifacts.Cache

/-- A write has ended. -/
def hasEnded (c : Cache) (id : Nat) : Bool :=
  (c.jobs[id]?.bind fun job => job.stage.outcome?).isSome

/-- The cache has taken note of the end of a write. -/
def isSettled (c : Cache) (id : Nat) : Bool := c.jobs[id]?.any Job.settled

/-- Something outside keeps the next try of a write from beginning. -/
def isRefused (c : Cache) (id : Nat) : Bool :=
  c.jobs[id]?.any fun job => (c.faults c.attempts job.path .beginning).isSome

/-- A write waits between two tries. -/
def isResting (c : Cache) (id : Nat) : Bool :=
  c.jobs[id]?.any fun job =>
    match job.stage with
    | .resting _ => true
    | _ => false

/-- A write takes at most `steps` steps. -/
def run (c : Cache) (id : Nat) : (steps : Nat) → Cache
  | 0 => c
  | steps + 1 => if c.hasEnded id then c else run (c.advance id) id steps

/-- No write takes more steps: six for each try. -/
def stepLimit (c : Cache) : Nat := 6 * (c.backoff.tryLimit + 1)

/-- A write runs until it has ended, and the cache takes note of it. -/
def drain (c : Cache) (id : Nat) : Cache := (c.run id c.stepLimit).settle id

/-- What someone who waits for a write gets: the path, or what the write ended in. -/
def outcome (c : Cache) (id : Nat) : Except Failure AbsolutePath :=
  match c.jobs[id]? with
  | none => .error .cancelled
  | some job =>
    match job.stage.outcome? with
    | some (.ok ()) => .ok job.path
    | some (.error e) => .error e
    | none => .error .cancelled

/-- Stores a text and waits for its write. -/
def store (a : Address) (content : String) : Act Cache AbsolutePath := do
  let id ← request a content
  modify fun c => c.drain id
  MonadExcept.ofExcept (outcome (← get) id)

/-- The name that a value is. -/
def nameOf (a : Json) : Except ShapeError String := a.asName "lstrip"

/-- The cache as a shelf. -/
def shelf : Shelf Cache where
  locate name := do
    let name ← Act.ofExcept .shape (nameOf name)
    let path ← Act.ofExcept .name ((← get).locate name)
    return path.toString
  isCached outName := do Act.ofExcept .name ((← get).isCached outName)
  store a content := discard (store a content)

@[simp] theorem run_zero (c : Cache) (id : Nat) : c.run id 0 = c := rfl

theorem run_of_hasEnded {c : Cache} {id : Nat} (h : c.hasEnded id) (steps : Nat) :
    c.run id steps = c := by
  cases steps with
  | zero => rfl
  | succ steps => simp [run, h]

theorem run_of_not_hasEnded {c : Cache} {id : Nat} (h : c.hasEnded id = false) (steps : Nat) :
    c.run id (steps + 1) = (c.advance id).run id steps := by
  simp [run, h]

end SchemaArtifacts.Cache
