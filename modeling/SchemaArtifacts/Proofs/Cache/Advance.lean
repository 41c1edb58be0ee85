import Mathlib.Data.List.Basic
import SchemaArtifacts.Cache.Job

/-!
# What a step of a write does

What a write does next depends on its job, on the disk, and on what the world adds at that moment;
of the cache it needs nothing else.

## Main definitions

* `Stage.isDone`, `Stage.inFlight` — a write has put its artifact in its place, or has not ended
* `Job.next` — what a write does next, told without its cache
* `Cache.Turns` — one write has come to another stage

## Main results

* `Job.run_perform_of_some`, `Job.run_perform_of_none` — a moment of a try, broken off or not
* `Cache.turns_advance`, `Cache.count_advance`, `Cache.attempts_advance` — a write does what its job
  says
* `Cache.settle_of_settled`, `Cache.settle_of_inFlight`, `Cache.jobs_settle` — an end is noted once
-/

namespace SchemaArtifacts

/-- The artifact of a write is in its place. -/
def Stage.isDone (stage : Stage) : Bool :=
  match stage with
  | .ended (.ok ()) => true
  | _ => false

/-- A write has not ended. -/
def Stage.inFlight (stage : Stage) : Bool := stage.outcome?.isNone

theorem isDone_eq_false_of_inFlight {stage : Stage} (h : stage.inFlight) : stage.isDone = false := by
  cases stage with
  | ended outcome => cases h
  | _ => rfl

theorem inFlight_eq_false_of_isDone {stage : Stage} (h : stage.isDone) : stage.inFlight = false := by
  cases stage with
  | ended outcome => rfl
  | _ => cases h

/-- The stage of a write after a failed try. -/
def Stage.setBack (b : Backoff) (draw : Number) (attempt : Nat) (e : Failure) : Stage :=
  if e.isTransient && b.allows attempt then
    match b.rest attempt draw with
    | .ok _ => .resting attempt
    | .error e => .ended (.error (.range e))
  else .ended (.error e)

/-- The stage of a write after an operation on the disk, and the disk then. -/
def Stage.after (b : Backoff) (draw : Number) (attempt : Nat) (next : Stage) :
    Except Failure Unit × Disk → Stage × Disk
  | (.ok (), d) => (next, d)
  | (.error e, d) => (.setBack b draw attempt e, d)

/-- What a write does next, told without its cache: the stage it comes to, and the disk then. -/
def Job.next (b : Backoff) (fault : Moment → Option Interruption) (draw : Number) (job : Job)
    (d : Disk) : Stage × Disk :=
  match job.stage with
  | .ready n => Stage.after b draw n (.opening n) ((job.makeWay fault).run d)
  | .opening n => Stage.after b draw n (.filling n) ((job.perform fault .opening).run d)
  | .filling n => Stage.after b draw n (.closing n) ((job.perform fault .filling).run d)
  | .closing n => Stage.after b draw n (.placing n) ((job.perform fault .closing).run d)
  | .placing n => Stage.after b draw n (.ended (.ok ())) ((job.perform fault .placing).run d)
  | .resting n => (.ready (n + 1), d)
  | .ended outcome => (.ended outcome, d)

/-- A write is about to begin a try. -/
def Stage.isReady (stage : Stage) : Bool :=
  match stage with
  | .ready _ => true
  | _ => false

/-- A failed try does not put an artifact in its place. -/
theorem Stage.isDone_setBack (b : Backoff) (draw : Number) (attempt : Nat) (e : Failure) :
    (Stage.setBack b draw attempt e).isDone = false := by
  unfold setBack
  split
  · split <;> rfl
  · rfl

/-- Nor does it leave an artifact about to come there. -/
theorem Stage.setBack_ne_placing (b : Backoff) (draw : Number) (attempt : Nat) (e : Failure)
    (n : Nat) : Stage.setBack b draw attempt e ≠ .placing n := by
  unfold setBack
  split
  · split <;> simp
  · simp

theorem Stage.isDone_after {b : Backoff} {draw : Number} {attempt : Nat} {next : Stage}
    (h : next.isDone = false) (result : Except Failure Unit × Disk) :
    (Stage.after b draw attempt next result).1.isDone = false := by
  obtain ⟨_ | _, d⟩ := result
  · exact isDone_setBack b draw attempt _
  · exact h

/-! ## A moment of a try -/

namespace Job

variable {job : Job} {d : Disk}

theorem run_perform_of_some {fault : Moment → Option Interruption} {moment : Moment}
    {broken : Interruption} (h : fault moment = some broken) (job : Job) (d : Disk) :
    (job.perform fault moment).run d =
      (.error (.incident broken.incident), ((job.remnant broken.progress moment).run d).2) := by
  simp only [perform, ExceptT.run_mk, h]

theorem run_perform_of_none {fault : Moment → Option Interruption} {moment : Moment}
    (h : fault moment = none) (job : Job) (d : Disk) : (job.perform fault moment).run d =
      (((job.task moment).run d).1.mapError .disk, ((job.task moment).run d).2) := by
  simp only [perform, ExceptT.run_mk, h]
  rfl

/-- A try that is kept from beginning asks the disk for nothing. -/
theorem run_makeWay_of_some {fault : Moment → Option Interruption} {broken : Interruption}
    (h : fault .beginning = some broken) (job : Job) (d : Disk) :
    (job.makeWay fault).run d = (.error (.incident broken.incident), d) := by
  rw [makeWay, Act.run_bind, run_perform_of_some h]
  rfl

theorem run_makeWay_of_none {fault : Moment → Option Interruption} (h : fault .beginning = none)
    (job : Job) (d : Disk) : (job.makeWay fault).run d = (job.perform fault .directories).run d := by
  rw [makeWay, Act.run_bind, run_perform_of_none h]
  rfl

/-- No try calls its write off. -/
theorem perform_ne_cancelled (job : Job) (fault : Moment → Option Interruption) (moment : Moment)
    (d : Disk) : ((job.perform fault moment).run d).1 ≠ .error .cancelled := by
  cases hfault : fault moment with
  | some broken =>
    rw [run_perform_of_some hfault]
    nofun
  | none =>
    rw [run_perform_of_none hfault]
    cases ((job.task moment).run d).1 <;> nofun

theorem makeWay_ne_cancelled (job : Job) (fault : Moment → Option Interruption) (d : Disk) :
    ((job.makeWay fault).run d).1 ≠ .error .cancelled := by
  cases hbegin : fault .beginning with
  | some broken =>
    rw [run_makeWay_of_some hbegin]
    nofun
  | none =>
    rw [run_makeWay_of_none hbegin]
    exact perform_ne_cancelled job fault .directories d

/-- A try that has begun has made the directories. -/
theorem run_makeDirectories_of_makeWay {fault : Moment → Option Interruption}
    (h : ((job.makeWay fault).run d).1 = .ok ()) :
    ((DiskM.makeDirectories job.path.parent).run d).1 = .ok () ∧
      ((job.makeWay fault).run d).2 = ((DiskM.makeDirectories job.path.parent).run d).2 := by
  cases hbegin : fault .beginning with
  | some broken =>
    rw [run_makeWay_of_some hbegin] at h
    cases h
  | none =>
    rw [run_makeWay_of_none hbegin] at h ⊢
    cases hmake : fault .directories with
    | some broken =>
      rw [run_perform_of_some hmake] at h
      cases h
    | none =>
      rw [run_perform_of_none hmake] at h ⊢
      exact ⟨Result.mapError_eq_ok.1 h, rfl⟩

end Job

/-! ## A step of a write -/

namespace Cache

variable {c c' : Cache} {id : Nat} {job : Job}

/-- What a write does next in a cache. -/
def nextOf (c : Cache) (job : Job) : Stage × Disk :=
  job.next c.backoff (c.faults c.attempts job.path) (c.draws c.drawn) c.disk

/-- One write has come to another stage, with a change to the disk, and nothing else is noted. -/
structure Turns (c c' : Cache) (id : Nat) (next : Stage × Disk) : Prop where
  jobs : c'.jobs = c.jobs.modify id fun job => { job with stage := next.1 }
  disk : c'.disk = next.2
  pending : c'.pending = c.pending
  written : c'.written = c.written

theorem Turns.getElem? {next : Stage × Disk} (h : Turns c c' id next) (hj : c.jobs[id]? = some job) :
    c'.jobs[id]? = some { job with stage := next.1 } := by
  rw [h.jobs, List.getElem?_modify, hj]
  simp

theorem turns_failTry (c : Cache) (id attempt : Nat) (e : Failure) :
    Turns c (c.failTry id attempt e) id
      (.setBack c.backoff (c.draws c.drawn) attempt e, c.disk) := by
  unfold failTry Stage.setBack
  split
  · cases c.backoff.rest attempt (c.draws c.drawn) <;> exact ⟨rfl, rfl, rfl, rfl⟩
  · exact ⟨rfl, rfl, rfl, rfl⟩

theorem turns_onDisk (c : Cache) (id attempt : Nat) (act : Act Disk Unit) (next : Stage) :
    Turns c (c.onDisk id attempt act next) id
      (Stage.after c.backoff (c.draws c.drawn) attempt next (act.run c.disk)) := by
  unfold onDisk
  rcases hrun : act.run c.disk with ⟨result, disk⟩
  cases result with
  | ok _ => exact ⟨rfl, rfl, rfl, rfl⟩
  | error e =>
    have h := turns_failTry { c with disk } id attempt e
    exact ⟨h.jobs, h.disk, h.pending, h.written⟩

theorem kept_failTry (c : Cache) (id attempt : Nat) (e : Failure) :
    (c.failTry id attempt e).count = c.count ∧ (c.failTry id attempt e).attempts = c.attempts := by
  unfold failTry
  split
  · dsimp only
    split <;> exact ⟨rfl, rfl⟩
  · exact ⟨rfl, rfl⟩

theorem kept_onDisk (c : Cache) (id attempt : Nat) (act : Act Disk Unit) (next : Stage) :
    (c.onDisk id attempt act next).count = c.count ∧
      (c.onDisk id attempt act next).attempts = c.attempts := by
  unfold onDisk
  rcases act.run c.disk with ⟨result, disk⟩
  cases result with
  | ok _ => exact ⟨rfl, rfl⟩
  | error e => exact kept_failTry { c with disk } id attempt e

/-- A write comes to the stage that its job says, with what its job says for the disk. -/
theorem turns_advance (hj : c.jobs[id]? = some job) (hf : job.stage.inFlight) :
    Turns c (c.advance id) id (c.nextOf job) := by
  unfold advance nextOf Job.next
  rw [hj]
  dsimp only
  cases hs : job.stage with
  | ready n =>
    have h := turns_onDisk { c with attempts := job.path :: c.attempts } id n
      (job.makeWay (c.faults c.attempts job.path)) (.opening n)
    exact ⟨h.jobs, h.disk, h.pending, h.written⟩
  | opening n => exact turns_onDisk c id n _ _
  | filling n => exact turns_onDisk c id n _ _
  | closing n => exact turns_onDisk c id n _ _
  | placing n =>
    have h := turns_onDisk c id n (job.perform (c.faults c.attempts job.path) .placing)
      (.ended (.ok ()))
    dsimp only
    split
    · exact ⟨h.jobs, h.disk, h.pending, h.written⟩
    · exact h
  | resting n => exact ⟨rfl, rfl, rfl, rfl⟩
  | ended outcome =>
    rw [hs] at hf
    cases hf

theorem isDone_iff_outcome? {stage : Stage} : stage.isDone ↔ stage.outcome? = some (.ok ()) := by
  cases stage with
  | ended outcome => cases outcome <;> simp [Stage.isDone, Stage.outcome?]
  | _ => simp [Stage.isDone, Stage.outcome?]

/-- The count after the last step of a try. -/
private theorem count_of_turns {next : Stage × Disk} (h : Turns c c' id next)
    (hj : c.jobs[id]? = some job) (hcount : c'.count = c.count) :
    (match c'.jobs[id]?.bind fun job => job.stage.outcome? with
      | some (.ok ()) => { c' with count := c'.count + 1 }
      | _ => c').count = c.count + if next.1.isDone then 1 else 0 := by
  rw [h.getElem? hj]
  dsimp only [Option.bind_some]
  split
  · rename_i hout
    rw [if_pos (isDone_iff_outcome?.2 hout), ← hcount]
  · rename_i hout
    rw [if_neg fun hdone => hout (isDone_iff_outcome?.1 hdone), hcount]
    rfl

/-- A write counts when its artifact comes to its place. -/
theorem count_advance (hj : c.jobs[id]? = some job) (hf : job.stage.inFlight) :
    (c.advance id).count = c.count + if (c.nextOf job).1.isDone then 1 else 0 := by
  unfold advance nextOf Job.next
  rw [hj]
  dsimp only
  cases hs : job.stage with
  | placing n =>
    exact count_of_turns (turns_onDisk c id n (job.perform _ .placing) _) hj
      (kept_onDisk c id n _ _).1
  | resting n => rfl
  | ended outcome =>
    rw [hs] at hf
    cases hf
  | _ n =>
    dsimp only
    rw [(kept_onDisk _ id n _ _).1, Stage.isDone_after rfl]
    rfl

/-- A try is noted when it begins. -/
theorem attempts_advance (hj : c.jobs[id]? = some job) : (c.advance id).attempts =
    if job.stage.isReady then job.path :: c.attempts else c.attempts := by
  unfold advance
  rw [hj]
  dsimp only
  cases hs : job.stage with
  | placing n =>
    dsimp only
    split <;> exact (kept_onDisk c id n _ _).2
  | resting n => rfl
  | ended outcome => rfl
  | _ n => exact (kept_onDisk _ id n _ _).2

theorem advance_of_ended (hj : c.jobs[id]? = some job) (he : job.stage.inFlight = false) :
    c.advance id = c := by
  unfold advance
  rw [hj]
  dsimp only
  split
  case h_7 => rfl
  all_goals
    rename_i hs
    rw [hs] at he
    cases he

/-! ## The note of an end -/

theorem settle_of_settled (hj : c.jobs[id]? = some job) (hs : job.settled) : c.settle id = c := by
  unfold settle
  rw [hj]
  simp [hs]

theorem settle_of_inFlight (hj : c.jobs[id]? = some job)
    (hf : job.stage.inFlight) : c.settle id = c := by
  unfold settle
  rw [hj]
  have hout : job.stage.outcome? = none := by simpa [Stage.inFlight] using hf
  simp [hout]

theorem jobs_settle (hj : c.jobs[id]? = some job)
    (he : job.stage.inFlight = false) (hs : job.settled = false) :
    (c.settle id).jobs = c.jobs.modify id fun job => { job with settled := true } := by
  unfold settle
  rw [hj]
  dsimp only
  rw [hs]
  cases hout : job.stage.outcome? with
  | none => simp [Stage.inFlight, hout] at he
  | some outcome => cases outcome <;> rfl

theorem kept_settle (c : Cache) (id : Nat) :
    (c.settle id).count = c.count ∧ (c.settle id).attempts = c.attempts := by
  unfold settle
  split
  · exact ⟨rfl, rfl⟩
  · split
    · exact ⟨rfl, rfl⟩
    · split
      · exact ⟨rfl, rfl⟩
      · dsimp only
        split <;> exact ⟨rfl, rfl⟩

theorem disk_settle (c : Cache) (id : Nat) : (c.settle id).disk = c.disk := by
  unfold settle
  split
  · rfl
  · split
    · rfl
    · split
      · rfl
      · dsimp only
        split <;> rfl

end Cache
end SchemaArtifacts
