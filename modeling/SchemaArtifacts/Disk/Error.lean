import SchemaArtifacts.Text.Quoted

/-!
# Errors of the disk

## Main definitions

* `DiskError.Cause` — why an operation on the disk fails, with its number and text
* `DiskError` — a cause with the paths of the operation, with `DiskError.message`
-/

namespace SchemaArtifacts

/-- Why an operation on the disk fails. -/
inductive DiskError.Cause where
  | missing
  | alreadyThere
  | notDirectory
  | isDirectory
  | nameTooLong
  | tooManyLinks
  deriving Repr, DecidableEq

/-- The number of a cause. -/
def DiskError.Cause.number : DiskError.Cause → Nat
  | .missing => 2
  | .alreadyThere => 17
  | .notDirectory => 20
  | .isDirectory => 21
  | .nameTooLong => 36
  | .tooManyLinks => 40

/-- The text of a cause. -/
def DiskError.Cause.text : DiskError.Cause → String
  | .missing => "No such file or directory"
  | .alreadyThere => "File exists"
  | .notDirectory => "Not a directory"
  | .isDirectory => "Is a directory"
  | .nameTooLong => "File name too long"
  | .tooManyLinks => "Too many levels of symbolic links"

/-- A failed operation on the disk. -/
structure DiskError where
  cause : DiskError.Cause
  path : String
  /-- The other path of an operation on two. -/
  target : Option String := none
  deriving Repr, DecidableEq

/-- The text of a failure. -/
def DiskError.message (e : DiskError) : String :=
  "[Errno " ++ toString e.cause.number ++ "] " ++ e.cause.text ++ ": " ++ Text.quoted e.path ++
    (e.target.elim "" fun t => " -> " ++ Text.quoted t)

end SchemaArtifacts
