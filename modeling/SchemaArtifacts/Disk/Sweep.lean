import SchemaArtifacts.Disk.Operations

/-!
# Sweeping a directory

Empty files and left-over temporary files are removed, at any depth but not behind a link that leads
to a directory. A file that cannot be removed is left. Every entry is looked up by its path, and the
order in which a walk comes to the entries is its own.

## Main definitions

* `Sweep.isRubbish` — a path leads to a file that is temporary or empty
* `Sweep.Walk` — an order of the entries below a directory
* `Sweep.visit` — a walk comes to an entry
* `DiskM.sweep` — a whole sweep, with the number of entries removed
-/

namespace SchemaArtifacts

/-- The ending of the names of temporary files. -/
def temporarySuffix : String := ".~tmp"

namespace Sweep

/-- The name of a temporary file. -/
def isTemporary (name : String) : Bool := temporarySuffix.toList.isSuffixOf name.toList

/-- By this way from a root one comes to a file that is temporary by its name, or empty. -/
def isRubbish (d : Disk) (root : AbsolutePath) (way : List String) : Bool :=
  match d.content? (root.join way) with
  | none => false
  | some content => isTemporary (way.getLastD "") || content.isEmpty

/-- An order of entries, each with its way from the root. A directory stands where it is listed. -/
structure Walk where
  arrange : List (List String × Entry) → List (List String × Entry)
  perm : ∀ entries, (arrange entries).Perm entries

/-- The entries below a directory, each with its way from there. -/
def listing (d : Disk) (top : List String) : List (List String × Entry) :=
  (d.below top).filterMap fun entry =>
    (d.get? entry.1).map fun e => (entry.1.drop top.length, e)

/-- Where an entry stands in a walk by name: in the directory that has it, or in front of its own
entries if it is a directory. -/
def position : List String × Entry → List String × String
  | (way, .directory) => (way, "")
  | (way, _) => (way.dropLast, way.getLastD "")

/-- Whether an entry comes before another in a walk by name. -/
def entryLe (a b : List String × Entry) : Bool :=
  if (position a).1 = (position b).1 then (position a).2 ≤ (position b).2
  else (position a).1 < (position b).1

/-- The walk by name. -/
def Walk.byName : Walk where
  arrange entries := entries.mergeSort entryLe
  perm entries := List.mergeSort_perm entries entryLe

/-- A walk comes to an entry. A directory is listed; anything else is removed if it is rubbish, unless
its name is `stuck`. The entries removed are counted. -/
def visit (stuck : String → Bool) (root : AbsolutePath) (top : List String) (removed : Nat)
    (entry : List String × Entry) : DiskM Nat := do
  if entry.2 = .directory then
    let _ ← DiskM.locate .behind (root.join entry.1)
    return removed
  else if isRubbish (← get) root entry.1 && !stuck (entry.1.getLastD "") then
    modify fun d => d.erase (top ++ entry.1)
    return removed + 1
  else return removed

end Sweep

/-- Sweeps the directory that a path leads to. Files whose names are `stuck` cannot be removed. Below
a path that leads nowhere there is nothing, unless it is too long to be looked up. -/
def DiskM.sweep (walk : Sweep.Walk) (stuck : String → Bool) (root : AbsolutePath) : DiskM Nat := do
  let d ← get
  match d.locate .behind root with
  | .error .nameTooLong => throw { cause := .nameTooLong, path := root.toString }
  | .error _ => return 0
  | .ok top =>
    if d.get? top = some .directory then
      (walk.arrange (Sweep.listing d top)).foldlM (Sweep.visit stuck root top) 0
    else return 0

end SchemaArtifacts
