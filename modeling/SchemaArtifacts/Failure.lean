import SchemaArtifacts.Disk.Error
import SchemaArtifacts.Json.Fault
import SchemaArtifacts.Json.Shape
import SchemaArtifacts.Name.Segments
import SchemaArtifacts.Text.Utf8

/-!
# Failures

Whatever can keep an export from being done, each with its text.

## Main definitions

* `Incident` — a failure that comes from outside
* `Failure` — a failure, with `Failure.message`
* `Failure.isTransient` — the failures after which a write is tried again

## Main results

* `Failure.isTransient_iff` — what is tried again comes from the disk or from outside
-/

namespace SchemaArtifacts

/-- A failure that comes from outside, under a label of its own. -/
structure Incident where
  label : String
  /-- The failure may pass: the operation can be tried again. -/
  transient : Bool
  message : String
  deriving Repr, DecidableEq

/-- Why something could not be done. -/
inductive Failure where
  | name (e : NameError)
  | shape (e : ShapeError)
  | range (e : Number.OutOfRange)
  | disk (e : DiskError)
  | incident (e : Incident)
  /-- No format has this label. -/
  | unknownFormat (label : String)
  /-- The address denotes a file outside the cache. -/
  | localFile (url : String)
  | cancelled
  | negativeConcurrency
  /-- A path given from outside holds a null character. -/
  | nullInPath
  /-- A text is no description. -/
  | unreadable (e : Json.ReadError Json.Place)
  /-- Bytes are no text. -/
  | undecodable (e : Text.Utf8Error)

namespace Failure

/-- The text of a failure. -/
def message : Failure → String
  | .name e => e.message
  | .shape e => e.message
  | .range e => e.message
  | .disk e => e.message
  | .incident e => e.message
  | .unknownFormat label => "Unknown export format: " ++ Text.quoted label ++ ". Use 'ts' or 'js'."
  | .localFile url => "Refusing to store over local file: " ++ url
  | .cancelled => ""
  | .negativeConcurrency => "Semaphore initial value must be >= 0"
  | .nullInPath => "embedded null byte"
  | .unreadable e => e.message
  | .undecodable e => e.message

/-- The failures after which a write is tried again: those of the disk, and those from outside that
may pass. -/
def isTransient : Failure → Bool
  | .disk _ => true
  | .incident e => e.transient
  | _ => false

theorem isTransient_iff (f : Failure) :
    f.isTransient ↔ (∃ e, f = .disk e) ∨ ∃ e : Incident, e.transient ∧ f = .incident e := by
  cases f <;> simp [isTransient]

/-- No document is there to be asked for `property`. -/
def noDocument (property : String) : Failure := .shape (.noAttribute Json.null.kind property)

end Failure

end SchemaArtifacts
