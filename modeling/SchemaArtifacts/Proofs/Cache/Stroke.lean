import SchemaArtifacts.Proofs.Cache.Advance
import SchemaArtifacts.Proofs.Disk.Below

/-!
# What a step of a write does to the disk

A step of a write does at most one thing to the disk, also if it is broken off: it adds directories,
gives the temporary file a text, or gives that file the name of the artifact. The last ends the write
well, and nothing else does.

## Main definitions

* `Job.Stroke` — what a step of a write can do to the disk, with the stage after it

## Main results

* `Job.stroke_remnant`, `Job.stroke_perform` — a moment of a try is a stroke, broken off or not
* `Job.stroke_next` — every step of a write is a stroke
* `Cache.exists_stroke_advance` — a write in a cache takes such steps
-/

namespace SchemaArtifacts

open Disk

/-- A write comes to a stage by a step that does this to the disk. -/
inductive Job.Stroke (job : Job) (d : Disk) : Disk → Stage → Prop where
  /-- At most directories are added. -/
  | grew (d' : Disk) (stage : Stage) (grows : GrowsToward job.path.parent d d')
      (notDone : stage.isDone = false) (notPlacing : ∀ n, stage ≠ .placing n) :
      Stroke job d d' stage
  /-- The temporary file is given a text. -/
  | wrote (place : List String) (text : String) (stage : Stage)
      (located : d.locate .writing (Cache.temporary job.path) = .ok place)
      (free : d.get? place ≠ some .directory) (notDone : stage.isDone = false)
      (full : ∀ n, stage = .placing n → text = job.content) :
      Stroke job d (d.set place (.file text)) stage
  /-- The temporary file becomes the artifact. -/
  | placed (n : Nat) (old new : List String) (e : Entry) (ready : job.stage = .placing n)
      (source : d.locate .itself (Cache.temporary job.path) = .ok old)
      (target : d.locate .itself job.path = .ok new) (entry : d.get? old = some e)
      (free : d.get? new ≠ some .directory) :
      Stroke job d ((d.erase old).set new e) (.ended (.ok ()))

theorem write_of_error {p : AbsolutePath} {content : String} {d : Disk} {e : DiskError}
    (h : ((DiskM.write p content).run d).1 = .error e) :
    ((DiskM.write p content).run d).2 = d := by
  rw [DiskM.run_write] at h ⊢
  split
  · split
    · rfl
    · simp [*] at h
  · rfl

theorem write_of_ok {p : AbsolutePath} {content : String} {d : Disk}
    (h : ((DiskM.write p content).run d).1 = .ok ()) :
    ∃ place, d.locate .writing p = .ok place ∧ d.get? place ≠ some .directory ∧
      ((DiskM.write p content).run d).2 = d.set place (.file content) := by
  rw [DiskM.run_write] at h ⊢
  split at h
  · rename_i place hplace
    split at h
    · cases h
    · rename_i hfree
      exact ⟨place, hplace, hfree, by rw [if_neg hfree]⟩
  · cases h

theorem rename_of_error {p q : AbsolutePath} {d : Disk} {e : DiskError}
    (h : ((DiskM.rename p q).run d).1 = .error e) : ((DiskM.rename p q).run d).2 = d := by
  rw [DiskM.run_rename] at h ⊢
  split
  · rename_i old new hold hnew
    rw [hold, hnew] at h
    dsimp only at h ⊢
    split
    · rfl
    · rfl
    · split at h
      · simp_all
      · simp_all
      · cases h
  · rfl
  · rfl

theorem rename_of_ok {p q : AbsolutePath} {d : Disk}
    (h : ((DiskM.rename p q).run d).1 = .ok ()) :
    ∃ old new e, d.locate .itself p = .ok old ∧ d.locate .itself q = .ok new ∧
      d.get? old = some e ∧ d.get? new ≠ some .directory ∧
      ((DiskM.rename p q).run d).2 = (d.erase old).set new e := by
  rw [DiskM.run_rename] at h ⊢
  split at h
  · rename_i old new hold hnew
    split at h
    · cases h
    · cases h
    · rename_i e hentry hfree
      exact ⟨old, new, e, hold, hnew, hentry, hfree, rfl⟩
  · cases h
  · cases h

namespace Job

variable {job : Job} {d : Disk}

theorem Stroke.setBack {d' : Disk} (h : GrowsToward job.path.parent d d') (b : Backoff)
    (draw : Number) (attempt : Nat) (e : Failure) :
    job.Stroke d d' (.setBack b draw attempt e) :=
  .grew d' _ h (Stage.isDone_setBack b draw attempt e) (Stage.setBack_ne_placing b draw attempt e)

/-- Whatever text the temporary file has been given when a try fails, that is a stroke. -/
theorem stroke_write (text : String) (b : Backoff) (draw : Number) (attempt : Nat) (e : Failure) :
    job.Stroke d ((DiskM.write (Cache.temporary job.path) text).run d).2
      (.setBack b draw attempt e) := by
  cases hresult : ((DiskM.write (Cache.temporary job.path) text).run d).1 with
  | ok _ =>
    obtain ⟨place, hplace, hfree, hdisk⟩ := write_of_ok hresult
    rw [hdisk]
    exact .wrote place text _ hplace hfree (Stage.isDone_setBack b draw attempt e)
      fun n hn => absurd hn (Stage.setBack_ne_placing b draw attempt e n)
  | error cause =>
    rw [write_of_error hresult]
    exact .setBack (.refl _ _) b draw attempt e

/-- What a try that is broken off has done by then is a stroke. -/
theorem stroke_remnant (progress : Nat) (moment : Moment) (b : Backoff) (draw : Number)
    (attempt : Nat) (e : Failure) : job.Stroke d ((job.remnant progress moment).run d).2
      (.setBack b draw attempt e) := by
  cases moment with
  | directories =>
    exact .setBack ((growsToward_makeDirectories _ d).of_isAbove (isAbove_take _ progress))
      b draw attempt e
  | opening =>
    cases progress with
    | zero => exact .setBack (.refl _ _) b draw attempt e
    | succ progress => exact stroke_write "" b draw attempt e
  | filling | closing => exact stroke_write _ b draw attempt e
  | beginning | placing => exact .setBack (.refl _ _) b draw attempt e

/-- An operation that the disk refuses has added directories at most. -/
theorem growsToward_of_task {moment : Moment} {e : DiskError}
    (h : ((job.task moment).run d).1 = .error e) :
    GrowsToward job.path.parent d ((job.task moment).run d).2 := by
  cases moment with
  | directories => exact growsToward_makeDirectories _ d
  | opening =>
    rw [task] at h ⊢
    rw [write_of_error h]
    exact .refl _ _
  | closing =>
    rw [task] at h ⊢
    rw [write_of_error h]
    exact .refl _ _
  | placing =>
    rw [task] at h ⊢
    rw [rename_of_error h]
    exact .refl _ _
  | beginning | filling => exact .refl _ _

/-- What a try does at a moment is a stroke, if it is one where nothing breaks it off and the disk
does not refuse it. -/
theorem stroke_perform {moment : Moment} {next : Stage}
    (h : ((job.task moment).run d).1 = .ok () → job.Stroke d ((job.task moment).run d).2 next)
    (fault : Moment → Option Interruption) (b : Backoff) (draw : Number) (attempt : Nat) :
    job.Stroke d (Stage.after b draw attempt next ((job.perform fault moment).run d)).2
      (Stage.after b draw attempt next ((job.perform fault moment).run d)).1 := by
  cases hfault : fault moment with
  | some broken =>
    rw [run_perform_of_some hfault]
    exact stroke_remnant broken.progress moment b draw attempt _
  | none =>
    rw [run_perform_of_none hfault]
    cases hresult : ((job.task moment).run d).1 with
    | ok _ => exact h hresult
    | error e => exact .setBack (growsToward_of_task hresult) b draw attempt _

/-- Every step of a write in flight is a stroke. -/
theorem stroke_next (hf : job.stage.inFlight) (b : Backoff) (fault : Moment → Option Interruption)
    (draw : Number) (d : Disk) :
    job.Stroke d (job.next b fault draw d).2 (job.next b fault draw d).1 := by
  unfold next
  cases hs : job.stage with
  | ready n =>
    dsimp only
    cases hbegin : fault .beginning with
    | some broken =>
      rw [run_makeWay_of_some hbegin]
      exact .setBack (.refl _ _) b draw n _
    | none =>
      rw [run_makeWay_of_none hbegin]
      refine stroke_perform (fun _ => ?_) fault b draw n
      exact .grew _ _ (growsToward_makeDirectories _ d) rfl (by simp)
  | opening n =>
    refine stroke_perform (fun hok => ?_) fault b draw n
    obtain ⟨place, hplace, hfree, hdisk⟩ := write_of_ok hok
    rw [task, hdisk]
    exact .wrote place "" _ hplace hfree rfl (by simp)
  | filling n => exact stroke_perform (fun _ => .grew _ _ (.refl _ _) rfl (by simp)) fault b draw n
  | closing n =>
    refine stroke_perform (fun hok => ?_) fault b draw n
    obtain ⟨place, hplace, hfree, hdisk⟩ := write_of_ok hok
    rw [task, hdisk]
    exact .wrote place job.content _ hplace hfree rfl fun _ _ => rfl
  | placing n =>
    refine stroke_perform (fun hok => ?_) fault b draw n
    obtain ⟨old, new, e, hold, hnew, hentry, hfree, hdisk⟩ := rename_of_ok hok
    rw [task, hdisk]
    exact .placed n old new e hs hold hnew hentry hfree
  | resting n => exact .grew _ _ (.refl _ _) rfl (by simp)
  | ended outcome =>
    rw [hs] at hf
    cases hf

end Job

/-- The step of a write in flight is a stroke, and nothing else happens to the writes. -/
theorem Cache.exists_stroke_advance {c : Cache} {id : Nat} {job : Job}
    (hj : c.jobs[id]? = some job) (hf : job.stage.inFlight) :
    ∃ stage d', Turns c (c.advance id) id (stage, d') ∧ job.Stroke c.disk d' stage :=
  ⟨_, _, turns_advance hj hf, job.stroke_next hf _ _ _ _⟩

end SchemaArtifacts
