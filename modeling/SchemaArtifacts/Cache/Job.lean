import SchemaArtifacts.Cache.Basic

/-!
# The steps of a write

## Main definitions

* `Job.task`, `Job.remnant` — what a try does to the disk at a moment, and what of it is done when it
  is broken off
* `Job.perform`, `Job.makeWay` — a try comes to a moment, and to the first two
* `Cache.request` — a text is to be stored at an address: the write that stands for it
* `Cache.advance` — a write takes its next step
* `Cache.settle` — the cache takes note of the outcome of a write
* `Cache.cancelWrite` — a write that has not begun is called off

## Main results

* `Cache.request_pending` — whoever asks for a path with a write joins it
-/

namespace SchemaArtifacts

/-- The temporary file beside an artifact. -/
def Cache.temporary (p : AbsolutePath) : AbsolutePath :=
  p.parent.join [p.name ++ temporarySuffix]

namespace Job

/-- What a try does to the disk at a moment. -/
def task (job : Job) : Moment → DiskM Unit
  | .beginning => pure ()
  | .directories => DiskM.makeDirectories job.path.parent
  | .opening => DiskM.write (Cache.temporary job.path) ""
  | .filling => pure ()
  | .closing => DiskM.write (Cache.temporary job.path) job.content
  | .placing => DiskM.rename (Cache.temporary job.path) job.path

/-- What a try that is broken off has done to the disk at that moment. -/
def remnant (job : Job) (progress : Nat) : Moment → DiskM Unit
  | .beginning => pure ()
  | .directories =>
    DiskM.makeDirectories { job.path.parent with parts := job.path.parent.parts.take progress }
  | .opening => if progress = 0 then pure () else DiskM.write (Cache.temporary job.path) ""
  | .filling | .closing =>
    DiskM.write (Cache.temporary job.path) (String.ofList (job.content.toList.take progress))
  | .placing => pure ()

/-- A try comes to a moment, at which it may be broken off. What the disk was given by then stays. -/
def perform (job : Job) (fault : Moment → Option Interruption) (moment : Moment) : Act Disk Unit :=
  ExceptT.mk fun d =>
    match fault moment with
    | some broken =>
      (.error (.incident broken.incident), ((job.remnant broken.progress moment).run d).2)
    | none =>
      let (result, d') := (job.task moment).run d
      (result.mapError .disk, d')

/-- A try begins, and the directories to the artifact are made. -/
def makeWay (job : Job) (fault : Moment → Option Interruption) : Act Disk Unit := do
  job.perform fault .beginning
  job.perform fault .directories

end Job

namespace Cache

/-- The write that a text to be stored at an address leads to: the one that stands for the path
already, or a new one. Local addresses and names without a path are refused. -/
def request (a : Address) (content : String) : Act Cache Nat := do
  if a.isLocal then throw (.localFile a.url)
  let c ← get
  let path ← Act.ofExcept .name (c.locate a.url)
  match c.pendingJob? path with
  | some id => return id
  | none =>
    let id := c.jobs.length
    modify fun c =>
      { c with jobs := c.jobs ++ [{ path, content }], pending := (path, id) :: c.pending }
    return id

/-- A write is at a stage. -/
def setStage (c : Cache) (id : Nat) (stage : Stage) : Cache :=
  { c with jobs := c.jobs.modify id fun job => { job with stage } }

/-- Try number `attempt` of a write has failed. A passing failure is followed by a rest and another
try as long as the backoff allows it. -/
def failTry (c : Cache) (id attempt : Nat) (e : Failure) : Cache :=
  if e.isTransient && c.backoff.allows attempt then
    let drawn := c.drawn + if c.backoff.draws attempt then 1 else 0
    match c.backoff.rest attempt (c.draws c.drawn) with
    | .ok d => { c with drawn, slept := c.slept ++ [d] }.setStage id (.resting attempt)
    | .error e => { c with drawn }.setStage id (.ended (.error (.range e)))
  else c.setStage id (.ended (.error e))

/-- An operation on the disk within try number `attempt` of a write, and the stage after it. -/
def onDisk (c : Cache) (id attempt : Nat) (act : Act Disk Unit) (next : Stage) : Cache :=
  let (result, disk) := act.run c.disk
  match result with
  | .ok () => { c with disk }.setStage id next
  | .error e => { c with disk }.failTry id attempt e

/-- A write takes its next step. -/
def advance (c : Cache) (id : Nat) : Cache :=
  match c.jobs[id]? with
  | none => c
  | some job =>
    let fault := c.faults c.attempts job.path
    match job.stage with
    | .ready n =>
      { c with attempts := job.path :: c.attempts }.onDisk id n
        (job.makeWay fault) (.opening n)
    | .opening n => c.onDisk id n (job.perform fault .opening) (.filling n)
    | .filling n => c.onDisk id n (job.perform fault .filling) (.closing n)
    | .closing n => c.onDisk id n (job.perform fault .closing) (.placing n)
    | .placing n =>
      let placed := c.onDisk id n (job.perform fault .placing) (.ended (.ok ()))
      match placed.jobs[id]?.bind fun job => job.stage.outcome? with
      | some (.ok ()) => { placed with count := placed.count + 1 }
      | _ => placed
    | .resting n => c.setStage id (.ready (n + 1))
    | .ended _ => c

/-- The cache takes note of the outcome of a write that has ended. A path that was written is known
from then on; for any other, the next request leads to a new write. -/
def settle (c : Cache) (id : Nat) : Cache :=
  match c.jobs[id]? with
  | none => c
  | some job =>
    if job.settled then c
    else
      match job.stage.outcome? with
      | none => c
      | some outcome =>
        let noted := { c with jobs := c.jobs.modify id fun job => { job with settled := true } }
        match outcome with
        | .ok () => { noted with written := job.path :: c.written.erase job.path }
        | .error _ => { noted with pending := c.pending.filter fun entry => entry.1 ≠ job.path }

/-- Calls off a write that has not begun. -/
def cancelWrite (c : Cache) (id : Nat) : Cache :=
  match c.jobs[id]? with
  | none => c
  | some job =>
    match job.stage with
    | .ready 0 => c.setStage id (.ended (.error .cancelled))
    | _ => c

theorem request_pending {c : Cache} {a : Address} {content : String} {p : AbsolutePath} {id : Nat}
    (hl : a.isLocal = false) (hp : c.locate a.url = .ok p) (hj : c.pendingJob? p = some id) :
    (request a content).run c = (.ok id, c) := by
  simp [request, hl, Act.run_bind, Act.run_get, Act.run_pure, Act.ofExcept, hp, hj]

end Cache

end SchemaArtifacts
