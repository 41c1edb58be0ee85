import SchemaArtifacts.Proofs.Cache.Work
import SchemaArtifacts.Proofs.Session.Stored
import SchemaArtifacts.Proofs.Session.Turn

/-!
# What a write leaves before it is done

Until it gives its artifact its name, a write makes directories and fills its temporary file. So
however far it comes, and whatever keeps it from going on, all files are as before, except for those
that are temporary by their names, and no directory is gone.

## Main definitions

* `Disk.SameFiles` — files are the same, except for temporary ones, and directories are still there
* `Cache.Underway` — a write has begun and is at a stage, and nothing else has happened to its cache

## Main results

* `Job.Stroke.sameFiles` — a step of a write that does not end well
* `Cache.Underway.run` — any number of steps of a write
* `Cache.hasEnded_run` — a write ends within its number of steps, unless tries are made without end
-/

namespace SchemaArtifacts

open Cache Disk

namespace Disk

variable {d d' d'' : Disk} {place : List String} {e : Entry}

/-- All files are the same, except for those that are temporary by their names, and every directory is
still there. -/
structure SameFiles (d d' : Disk) : Prop where
  file : ∀ place x, Sweep.isTemporary (place.getLastD "") = false →
    (d'.get? place = some (.file x) ↔ d.get? place = some (.file x))
  directory : ∀ place, d.get? place = some .directory → d'.get? place = some .directory

theorem SameFiles.refl (d : Disk) : SameFiles d d := ⟨fun _ _ _ => Iff.rfl, fun _ => id⟩

theorem SameFiles.trans (h : SameFiles d d') (h' : SameFiles d' d'') : SameFiles d d'' :=
  ⟨fun place x hname => (h'.file place x hname).trans (h.file place x hname),
    fun place hdirectory => h'.directory place (h.directory place hdirectory)⟩

theorem Grows.sameFiles (h : Grows d d') : SameFiles d d' := by
  refine ⟨fun place x _ => ?_, fun place => h.get?_of_some⟩
  rcases h place with heq | ⟨hnone, hdirectory⟩
  · rw [heq]
  · simp [hnone, hdirectory]

/-- A temporary file may come or go where no directory is. -/
theorem sameFiles_set (hname : Sweep.isTemporary (place.getLastD ""))
    (hfree : d.get? place ≠ some .directory) : SameFiles d (d.set place e) := by
  refine ⟨fun other x hother => ?_, fun other hdirectory => ?_⟩
  · have hne : other ≠ place := by
      rintro rfl
      rw [hname] at hother
      cases hother
    rw [get?_set_ne hne]
  · have hne : other ≠ place := by
      rintro rfl
      exact hfree hdirectory
    rw [get?_set_ne hne, hdirectory]

end Disk

/-- A step of a write that does not end well changes no file but the temporary one, and takes no
directory away. -/
theorem Job.Stroke.sameFiles {root : AbsolutePath} {job : Job} {d d' : Disk} {stage : Stage}
    (h : job.Stroke d d' stage) (hfree : IsFreeBelow d root) (hpath : root.IsWithin job.path)
    (hnot : stage.isDone = false) : SameFiles d d' := by
  cases h with
  | grew _ _ grows => exact grows.grows.sameFiles
  | wrote place text _ located free =>
    obtain ⟨dir, name, hjoin, hparts⟩ := hpath.exists_concat
    rw [hjoin, temporary_join] at located
    obtain ⟨top, -, rfl, -⟩ := hfree.exists_place (by simp)
      (plain_concat_temporarySuffix fun n hn => (hparts n hn).isPlain) located
    have hname : Sweep.isTemporary ((top ++ (dir ++ [name ++ temporarySuffix])).getLastD "") := by
      rw [← List.append_assoc, List.getLastD_concat]
      exact isTemporary_append name
    exact sameFiles_set hname free
  | placed => cases hnot

namespace Cache

variable {c₀ c : Cache} {path : AbsolutePath} {content : String} {stage : Stage} {id : Nat}
  {job : Job}

/-- In a cache `c₀` a write has begun that is at a stage by now, and nothing else has happened. -/
structure Underway (c₀ : Cache) (path : AbsolutePath) (content : String) (stage : Stage) (c : Cache) :
    Prop where
  confined : c.IsConfined
  world : SameWorld c₀ c
  jobs : c.jobs = c₀.jobs ++ [({ path, content, stage } : Job)]
  pending : c.pending = (path, c₀.jobs.length) :: c₀.pending
  written : c.written = c₀.written
  count : c.count = c₀.count + if stage.isDone then 1 else 0
  files : stage.isDone = false → SameFiles c₀.disk c.disk
  tends : c.Tends (fun _ _ => False) path

theorem Underway.getElem? (h : Underway c₀ path content stage c) :
    c.jobs[c₀.jobs.length]? = some { path, content, stage } := by
  rw [h.jobs]
  exact List.getElem?_concat_length

theorem inFlight_of_quiescent (h : c.Quiescent) : ∀ job ∈ c.jobs, job.stage.inFlight = false := by
  intro job hjob
  have hended := (h job hjob).1
  rw [Stage.inFlight, Option.isNone_eq_false_iff]
  exact hended

theorem operation_open_ {a : Address} (hforeign : a.isLocal = false)
    (hpath : c.locate a.url = .ok path) (hnone : c.pendingJob? path = none) (content : String) :
    c.Operation (c.open_ path content) := by
  have hop : c.Operation _ := .request a content
  simpa [run_request, hforeign, hpath, hnone] using hop

/-- A write begins where nothing else is on its way. -/
theorem underway_open_ (h : c₀.IsConfined) (hquiet : c₀.Quiescent) {a : Address}
    (hforeign : a.isLocal = false) (hpath : c₀.locate a.url = .ok path)
    (hnone : c₀.pendingJob? path = none) (content : String) :
    Underway c₀ path content (.ready 0) (c₀.open_ path content) := by
  have hop := operation_open_ hforeign hpath hnone content
  refine ⟨(h.operation hop).1, hop.sameWorld, rfl, rfl, rfl, rfl, fun _ => .refl c₀.disk, ?_⟩
  refine (h.balanced.tends_of_pendingJob? hnone _).operation h hop (Name.isWithin_of_locate hpath)
    fun id job hj hf => ?_
  rw [inFlight_of_quiescent hquiet job (List.mem_of_getElem? hj)] at hf
  cases hf

/-- A write takes a step. -/
theorem Underway.advance (h : Underway c₀ path content stage c) (hf : stage.inFlight) :
    ∃ stage', Underway c₀ path content stage' (c.advance c₀.jobs.length) := by
  have hj := h.getElem?
  have hturns := turns_advance hj hf
  have hwithin : c.root.IsWithin path := h.confined.within _ (List.mem_of_getElem? hj)
  have hnot : stage.isDone = false := isDone_eq_false_of_inFlight hf
  have hcount := count_advance hj hf
  refine ⟨(c.nextOf { path, content, stage }).1, (h.confined.advance hj hf).1,
    h.world.trans (sameWorld_advance c _), ?_, hturns.pending.trans h.pending,
    hturns.written.trans h.written, ?_, fun hnot' => ?_, ?_⟩
  · rw [hturns.jobs, h.jobs, List.modify_eq_take_cons_drop (by simp)]
    simp
  · rw [hcount, h.count, hnot]
    rfl
  · rw [hturns.disk]
    exact (h.files hnot).trans
      ((Job.stroke_next hf _ _ _ _).sameFiles h.confined.free hwithin hnot')
  · exact h.tends.advance h.confined hj hf hwithin ⟨hwithin.temporary_ne.symm, hwithin.temporary_ne⟩

theorem run_of_ended (hj : c.jobs[id]? = some job) (hf : job.stage.inFlight = false) (steps : Nat) :
    c.run id steps = c := by
  refine run_of_hasEnded ?_ steps
  rw [Delivery.hasEnded_iff hj, hf]
  rfl

theorem run_of_inFlight (hj : c.jobs[id]? = some job) (hf : job.stage.inFlight) (steps : Nat) :
    c.run id (steps + 1) = (c.advance id).run id steps := by
  refine run_of_not_hasEnded ?_ steps
  rw [Delivery.hasEnded_iff hj, hf]
  rfl

/-- What someone gets who waits for a write that has ended. -/
theorem outcome_of_stage {result : Except Failure Unit} (hj : c.jobs[id]? = some job)
    (hs : job.stage = .ended result) : c.outcome id = result.map fun _ => job.path := by
  rw [outcome, hj]
  simp only [hs, Stage.outcome?]
  cases result <;> rfl

/-- A write takes any number of steps. -/
theorem Underway.run (h : Underway c₀ path content stage c) (steps : Nat) :
    ∃ stage', Underway c₀ path content stage' (c.run c₀.jobs.length steps) := by
  induction steps generalizing c stage with
  | zero => exact ⟨stage, h⟩
  | succ steps ih =>
    cases hf : stage.inFlight with
    | true =>
      rw [run_of_inFlight h.getElem? hf]
      obtain ⟨stage', h'⟩ := h.advance hf
      exact ih h'
    | false =>
      rw [run_of_ended h.getElem? hf]
      exact ⟨stage, h⟩

/-- Unless tries are made without end, a write ends within the number of steps that are left to it. -/
theorem hasEnded_run (h : ¬ c.backoff.IsPatient) (hj : c.jobs[id]? = some job) {steps : Nat}
    (hsteps : job.stage.work c.backoff.tryLimit ≤ steps) : (c.run id steps).hasEnded id := by
  -- Each step leaves less work, and only an ended write has none left.
  induction steps generalizing c job with
  | zero =>
    have hf : job.stage.inFlight = false := by
      cases hs : job.stage with
      | ended outcome => rfl
      | _ => simp [hs, Stage.work] at hsteps
    rw [run_zero, Delivery.hasEnded_iff hj, hf]
    rfl
  | succ steps ih =>
    cases hf : job.stage.inFlight with
    | false =>
      rw [run_of_ended hj hf, Delivery.hasEnded_iff hj, hf]
      rfl
    | true =>
      rw [run_of_inFlight hj hf]
      have hbackoff := (sameWorld_advance c id).backoff
      have hless := Job.work_next_lt h (c.faults c.attempts job.path) (c.draws c.drawn) hf c.disk
      refine ih (by rwa [hbackoff]) ((turns_advance hj hf).getElem? hj) ?_
      rw [hbackoff]
      exact Nat.le_of_lt_succ (Nat.lt_of_lt_of_le hless hsteps)

/-- The tries of a write are noted, and nothing else is. -/
theorem exists_attempts_run (hj : c.jobs[id]? = some job) (steps : Nat) :
    ∃ n, (c.run id steps).attempts = List.replicate n job.path ++ c.attempts := by
  induction steps generalizing c job with
  | zero => exact ⟨0, rfl⟩
  | succ steps ih =>
    cases hf : job.stage.inFlight with
    | false =>
      rw [run_of_ended hj hf]
      exact ⟨0, rfl⟩
    | true =>
      rw [run_of_inFlight hj hf]
      obtain ⟨n, hn⟩ := ih ((turns_advance hj hf).getElem? hj)
      rw [hn, attempts_advance hj]
      split
      · exact ⟨n + 1, by simp [List.replicate_succ']⟩
      · exact ⟨n, rfl⟩

end Cache
end SchemaArtifacts
