import SchemaArtifacts.Export.Exporter
import SchemaArtifacts.Session.Caller

/-!
# Deliveries

An export to a cache is interrupted where it waits: for the disk to say whether the artifact is
there, and for the write of its text. A delivery is an export with the point it has come to.

## Main definitions

* `Delivery` — an exporter, and how far the export has come
* `Delivery.step` — a delivery takes the next step
* `Delivery.awaited?` — the write that a delivery waits for
* `Delivery.abandon` — a delivery goes no further
* `Delivery.result?` — how a delivery has ended

## Main results

* `Delivery.step_of_ended`, `Delivery.abandon_of_ended` — a delivery ends once
-/

namespace SchemaArtifacts

/-- How far a delivery has come. -/
inductive Delivery.Stage where
  | ready
  /-- The disk is asked for the artifact at a path. -/
  | looking (out : String) (path : AbsolutePath)
  /-- The disk has answered. -/
  | answered (out : String) (present : Bool)
  /-- The text is to be stored. -/
  | storing (caller : Caller)
  | ended (result : Except Failure ExportStatus)

/-- An export to a cache under way. -/
structure Delivery where
  exporter : Exporter
  stage : Delivery.Stage := .ready

namespace Delivery

variable {d : Delivery} {c : Cache} {result : Except Failure ExportStatus}

/-- The stage after a delivery has begun: what the cache knows needs no look at the disk. -/
def look (c : Cache) (out : String) : Stage :=
  match c.locate out with
  | .ok path => if c.isWritten path then .ended (.ok .cached) else .looking out path
  | .error e => .ended (if e.isUnsupported then .ok .skipped else .error (.name e))

/-- The stage of a delivery whose text is stored by a caller: it ends when the caller is served. -/
def await (caller : Caller) : Stage :=
  match caller.result? with
  | some result => .ended (result.map fun _ => .written)
  | none => .storing caller

/-- A delivery takes the next step. -/
def step (d : Delivery) (c : Cache) : Cache × Delivery :=
  match d.stage with
  | .ready =>
    let (result, c, exporter) := (Exporter.start Cache.shelf).run (c, d.exporter)
    let stage := match result with
      | .error e => .ended (.error e)
      | .ok none => .ended (.ok .noDocument)
      | .ok (some out) => look c out
    (c, { exporter, stage })
  | .looking out path => (c, { d with stage := .answered out (c.disk.exists_ path) })
  | .answered _ true => (c, { d with stage := .ended (.ok .cached) })
  | .answered out false =>
    let (result, c, exporter) := (Exporter.contents Cache.shelf).run (c, d.exporter)
    match result with
    | .error e => (c, { exporter, stage := .ended (.error e) })
    | .ok content =>
      let (c, caller) := Caller.step { address := .ofOutput out, content } c
      (c, { exporter, stage := await caller })
  | .storing caller =>
    let (c, caller) := caller.step c
    (c, { d with stage := await caller })
  | .ended _ => (c, d)

/-- The write that a delivery waits for. -/
def awaited? (d : Delivery) : Option Nat :=
  match d.stage with
  | .storing caller => caller.awaited?
  | _ => none

/-- A delivery that has not ended goes no further. -/
def abandon (d : Delivery) : Delivery :=
  match d.stage with
  | .ended _ => d
  | _ => { d with stage := .ended (.error .cancelled) }

/-- How a delivery has ended. -/
def result? (d : Delivery) : Option (Except Failure ExportStatus) :=
  match d.stage with
  | .ended result => some result
  | _ => none

/-- A delivery has begun and not ended. -/
def isUnderWay (d : Delivery) : Bool :=
  match d.stage with
  | .ready => false
  | .ended _ => false
  | _ => true

/-- A delivery has not begun. -/
def isReady (d : Delivery) : Bool :=
  match d.stage with
  | .ready => true
  | _ => false

theorem step_of_ended (h : d.stage = .ended result) : d.step c = (c, d) := by
  simp [step, h]

theorem abandon_of_ended (h : d.stage = .ended result) : d.abandon = d := by
  simp [abandon, h]

end Delivery

end SchemaArtifacts
