import SchemaArtifacts.Command.Invoke

/-!
# The program

The part of the disk that a command line looks at is read, the command line is run on it, and what
has changed is written back.
-/

open SchemaArtifacts

namespace SchemaArtifacts.Program

/-- The text of a file. Bytes that are no text stand for the characters of their numbers. -/
def readText (path : String) : IO String := do
  let bytes ← IO.FS.readBinFile path
  return (String.fromUTF8? bytes).getD
    (String.ofList (bytes.toList.map fun b => Char.ofNat b.toNat))

/-- The entries at and below a path. -/
partial def readTree (p : AbsolutePath) (d : Disk) : IO Disk := do
  try
    let found ← IO.FS.realPath p.toString
    if ← found.isDir then
      let mut d := d.set p.parts .directory
      for child in ← found.readDir do
        d ← readTree (p.join [child.fileName]) d
      return d
    else if ← found.pathExists then return d.set p.parts (.file (← readText p.toString))
    else return d
  catch _ => return d

/-- The directories that lead to a path, as far as they are there. -/
def readParents (p : AbsolutePath) (d : Disk) : IO Disk := do
  let mut d := d
  for n in List.range p.parts.length do
    let parent : AbsolutePath := { p with parts := p.parts.take n }
    if n ≠ 0 && (← (← IO.FS.realPath parent.toString).isDir) then
      d := d.set parent.parts .directory
  return d

/-- The path of a place. -/
def pathOf (place : List String) : String := AbsolutePath.toString { parts := place }

/-- Writes what has changed from one disk to the other: first what is gone, then what is new, a
directory before what it holds. -/
def writeChanges (before after : Disk) : IO Unit := do
  for (place, _) in before.entries do
    if (after.get? place).isNone then IO.FS.removeFile (pathOf place)
  let changed := after.entries.filter fun (place, e) => before.get? place ≠ some e
  for (place, e) in changed.mergeSort fun a b => a.1.length ≤ b.1.length do
    match e with
    | .directory => IO.FS.createDirAll (pathOf place)
    | .file content => IO.FS.writeFile (pathOf place) content
    | .link _ => pure ()

/-- The seconds since some moment. -/
def now : IO Number := do
  return .real (.ofRat (mkRat (← IO.monoNanosNow) 1000000000))

/-- A sequence of numbers between zero and one. -/
def draws (seed n : Nat) : Number :=
  .real (.ofRat (mkRat (randNat (mkStdGen (seed + n)) 0 999999).1 1000000))

/-- Runs a command line on the real disk. -/
def run (args : List String) : IO UInt32 := do
  let start ← now
  let here := AbsolutePath.ofString .top (← IO.currentDir).toString
  let value ← IO.getEnv Command.cacheDirVariable
  let settings := value.toList.map fun value => (Command.cacheDirVariable, value)
  let empty : World := { disk := {}, here, «variables» := settings }
  let mut disk : Disk := {}
  for p in here :: Command.paths empty args do
    disk ← readParents p disk
    disk ← if p = here then pure (disk.set here.parts .directory) else readTree p disk
  let seed ← IO.rand 0 999999
  let world : World := { empty with disk, start, finish := start, draws := draws seed }
  -- The time at the end is in no file, as `Command.disk_invoke_finish` says, so the files come first.
  writeChanges disk (Command.invoke world args).disk
  let outcome := Command.invoke { world with finish := ← now } args
  IO.print outcome.output
  (← IO.getStderr).putStr outcome.errors
  if let some e := outcome.escaped then (← IO.getStderr).putStrLn e.message
  return UInt32.ofNat outcome.code

end SchemaArtifacts.Program

/-- The command line of the program. -/
def main (args : List String) : IO UInt32 := SchemaArtifacts.Program.run args
