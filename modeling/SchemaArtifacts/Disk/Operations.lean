import SchemaArtifacts.Disk.Basic

/-!
# Operations on a disk

An operation that fails may have changed the disk before.

## Main definitions

* `DiskM` — operations that may fail
* `DiskM.makeDirectory`, `DiskM.makeDirectories` — a directory, and one with all its parents
* `DiskM.write` — a file with a content
* `DiskM.rename` — a new place for an entry, in the place of any file there
* `Disk.removeTree` — an entry is removed with everything below it
-/

namespace SchemaArtifacts

/-- Operations on a disk that may fail. -/
abbrev DiskM := ExceptT DiskError (StateM Disk)

namespace DiskM

/-- The place that a path leads to. -/
def locate (aim : Disk.Aim) (p : AbsolutePath) : DiskM (List String) := do
  match (← get).locate aim p with
  | .ok place => return place
  | .error cause => throw { cause, path := p.toString }

/-- Makes a directory. -/
def makeDirectory (p : AbsolutePath) : DiskM Unit := do
  let place ← locate .itself p
  if ((← get).get? place).isSome then throw { cause := .alreadyThere, path := p.toString }
  modify fun d => d.set place .directory

/-- Makes a directory that may be there already. -/
def ensureDirectory (p : AbsolutePath) : DiskM Unit := do
  tryCatch (makeDirectory p) fun e => do
    unless (← get).isDirectory p do throw e

/-- Makes the directory with these parts, the last one first, and before it those that lead to it. A
parent that turns out to be there already is no failure. -/
def makeWay (doubled : Bool) : (reversed : List String) → DiskM Unit
  | [] => ensureDirectory { doubled, parts := [] }
  | name :: above => do
    unless (← get).exists_ { doubled, parts := above.reverse } do
      tryCatch (makeWay doubled above) fun e => do
        unless e.cause = .alreadyThere do throw e
    ensureDirectory { doubled, parts := (name :: above).reverse }

/-- Makes a directory and before it those that lead to it. -/
def makeDirectories (p : AbsolutePath) : DiskM Unit := makeWay p.doubled p.parts.reverse

/-- Writes a file, in the place of its former content. -/
def write (p : AbsolutePath) (content : String) : DiskM Unit := do
  let place ← locate .writing p
  if (← get).get? place = some .directory then throw { cause := .isDirectory, path := p.toString }
  modify fun d => d.set place (.file content)

/-- Gives an entry that is no directory a new place, in the place of what is there. -/
def rename (source target : AbsolutePath) : DiskM Unit := do
  let refuse (cause : DiskError.Cause) : DiskM Unit :=
    throw { cause, path := source.toString, target := some target.toString }
  match (← get).locate .itself source, (← get).locate .itself target with
  | .ok old, .ok new =>
    match (← get).get? old, (← get).get? new with
    | none, _ => refuse .missing
    | some _, some .directory => refuse .isDirectory
    | some e, _ => modify fun d => (d.erase old).set new e
  | .error cause, _ => refuse cause
  | _, .error cause => refuse cause

end DiskM

/-- Removes the entry at a place with everything below it. -/
def Disk.removeTree (d : Disk) (p : List String) : Disk :=
  { entries := d.entries.filter fun entry => !p.isPrefixOf entry.1 }

end SchemaArtifacts
