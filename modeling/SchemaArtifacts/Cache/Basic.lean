import SchemaArtifacts.Address
import SchemaArtifacts.Backoff
import SchemaArtifacts.Disk.Sweep
import SchemaArtifacts.Act
import SchemaArtifacts.Name.Location

/-!
# Caches

A cache keeps each artifact in a file of its own below a root directory. Whoever asks for a path to
be written while it is being written joins that write, and a path that was written once is not
written again.

A write is a job of its own. It makes the directories, opens a temporary file, fills and closes it,
and gives it the name of the artifact; each of these is one step, and between two steps anything may
happen elsewhere. What the world adds — interruptions and chance — is part of the state, as functions
of what happened before.

## Main definitions

* `Stage`, `Job` — a write and how far it has come
* `Moment`, `Interruption` — where something from outside can break off a try, and what does
* `Cache` — the state
* `Cache.locate` — the path of a name
* `Cache.isWritten`, `Cache.isPresent` — an artifact is there
* `Cache.Quiescent` — no write is on its way

## Main results

* `Cache.locate_eq_ok_iff` — which names have a path
-/

namespace SchemaArtifacts

/-- How far a write has come. Tries are counted from zero. -/
inductive Stage where
  /-- A try is about to begin. -/
  | ready (attempt : Nat)
  /-- The directories are there. -/
  | opening (attempt : Nat)
  /-- The temporary file is open and empty. -/
  | filling (attempt : Nat)
  /-- The text was handed over. -/
  | closing (attempt : Nat)
  /-- The temporary file is closed and holds the text. -/
  | placing (attempt : Nat)
  /-- A try has failed, and another is waited for. -/
  | resting (attempt : Nat)
  | ended (outcome : Except Failure Unit)

/-- The outcome of a write that has ended. -/
def Stage.outcome? : Stage → Option (Except Failure Unit)
  | .ended outcome => some outcome
  | _ => none

/-- A write. -/
structure Job where
  path : AbsolutePath
  content : String
  stage : Stage := .ready 0
  /-- The cache has taken note of the outcome. -/
  settled : Bool := false

/-- A moment of a try, at which something from outside can break it off. -/
inductive Moment where
  /-- The disk has not been asked for anything. -/
  | beginning
  /-- The directories to the artifact are made. -/
  | directories
  /-- The temporary file is opened. -/
  | opening
  /-- The text is handed over; the disk may be given it later. -/
  | filling
  /-- The temporary file is closed, with all of the text. -/
  | closing
  /-- The temporary file gets the name of the artifact. -/
  | placing
  deriving Repr, DecidableEq

/-- What breaks off a try. -/
structure Interruption where
  incident : Incident
  /-- How far the try had come at that moment: the names of the way to the artifact along which
  directories were made, whether the file was open, or the characters that had arrived. -/
  progress : Nat := 0
  deriving Repr, DecidableEq

/-- The state of a cache and of the disk it is on. -/
structure Cache where
  root : AbsolutePath
  backoff : Backoff := {}
  disk : Disk := {}
  /-- How many artifacts were written. -/
  count : Nat := 0
  /-- All writes so far. -/
  jobs : List Job := []
  /-- The write that stands for each path. -/
  pending : List (AbsolutePath × Nat) := []
  /-- The paths that were written. -/
  written : List AbsolutePath := []
  /-- The paths of all tries so far, the last one first. -/
  attempts : List AbsolutePath := []
  /-- How many numbers were drawn. -/
  drawn : Nat := 0
  /-- The delays so far, the last one last. -/
  slept : List Number := []
  /-- What breaks off a try to write a path at a moment, when so many tries have begun. -/
  faults : List AbsolutePath → AbsolutePath → Moment → Option Interruption := fun _ _ _ => none
  /-- The numbers that are drawn. -/
  draws : Nat → Number := fun _ => .int 0

namespace Cache

/-- The path of a name. -/
def locate (c : Cache) (name : String) : Except NameError AbsolutePath := Name.locate c.root name

/-- The write that stands for a path. -/
def pendingJob? (c : Cache) (p : AbsolutePath) : Option Nat := c.pending.lookup p

/-- The cache knows that it wrote a path. -/
def isWritten (c : Cache) (p : AbsolutePath) : Bool := c.written.contains p

/-- An artifact is there: the cache wrote it, or the disk has it. -/
def isPresent (c : Cache) (p : AbsolutePath) : Bool := c.isWritten p || c.disk.exists_ p

/-- Whether an artifact is there; nothing when no path belongs to its name. A malformed name is
refused. -/
def isCached (c : Cache) (name : String) : Except NameError (Option Bool) :=
  match c.locate name with
  | .ok p => .ok (some (c.isPresent p))
  | .error e => if e.isUnsupported then .ok none else .error e

/-- Every write has ended, and the cache has taken note of it. -/
def Quiescent (c : Cache) : Prop := ∀ job ∈ c.jobs, job.stage.outcome?.isSome ∧ job.settled

/-- Empty artifacts and left-over temporary files are removed, and counted. -/
def clean (walk : Sweep.Walk) (stuck : String → Bool) : Act Cache Nat := ExceptT.mk fun c =>
  let (result, disk) := (DiskM.sweep walk stuck c.root).run c.disk
  (result.mapError .disk, { c with disk })

/-- A fresh cache on the same disk, with the same world around it. -/
def renew (c : Cache) : Cache :=
  { c with count := 0, jobs := [], pending := [], written := [] }

theorem locate_eq_ok_iff {c : Cache} {name : String} {p : AbsolutePath} :
    c.locate name = .ok p ↔
      ∃ ss, Name.segments name = .ok ss ∧ p = c.root.join (ss.map String.ofList) := by
  refine ⟨Name.exists_segments_of_locate, ?_⟩
  rintro ⟨ss, hs, rfl⟩
  simp [locate, Name.locate, hs, Except.map]

theorem isCached_eq_none_iff {c : Cache} {name : String} :
    c.isCached name = .ok none ↔ ∃ e, c.locate name = .error e ∧ e.isUnsupported := by
  unfold isCached
  cases h : c.locate name with
  | ok p => simp
  | error e => by_cases he : e.isUnsupported <;> simp [he]

end Cache

end SchemaArtifacts
