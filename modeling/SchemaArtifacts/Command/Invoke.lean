import SchemaArtifacts.Command.Usage
import SchemaArtifacts.Model.File
import SchemaArtifacts.Session.Run
import SchemaArtifacts.Text.Integer
import SchemaArtifacts.Text.Plain

/-!
# Running a command line

A command line is run on a disk, from a directory, with an environment and a clock. What comes out
is an exit code, two texts, and the disk as it is then.

## Main definitions

* `World` — what a command line meets
* `Outcome` — what comes out of it
* `Command.Stop` — why a command is not run
* `Command.exportSettings`, `Command.cleanSettings` — the values of the options of a command
* `Command.runExport`, `Command.runClean` — the commands
* `Command.invoke` — a whole command line
* `Command.paths` — the paths that a command line looks at

## Main results

* `Command.disk_invoke_finish` — what is on the disk then does not depend on the time at the end
-/

namespace SchemaArtifacts

/-- What a command line meets. -/
structure World where
  disk : Disk
  /-- The directory it is run from. -/
  here : AbsolutePath := .top
  /-- The environment. -/
  «variables» : List (String × String) := []
  /-- The time at the start and at the end, in seconds. -/
  start : Number := .int 0
  finish : Number := .int 0
  /-- The numbers that are drawn. -/
  draws : Nat → Number := fun _ => .int 0
  /-- The order in which a directory is walked through. -/
  walk : Sweep.Walk := .byName

/-- What comes out of a command line. -/
structure Outcome where
  code : Nat := 0
  output : String := ""
  errors : String := ""
  /-- A failure that nothing in the command line took care of. -/
  escaped : Option Failure := none
  disk : Disk

namespace Command

/-- Why a command is not run. -/
inductive Stop where
  /-- The command line makes no sense. -/
  | misuse (e : UsageError)
  | failure (e : Failure)

/-- The value of a parameter makes no sense. -/
def Stop.invalid (parameter reason : String) : Stop := .misuse (.invalid parameter reason)

/-- No path holds a null character. -/
def checkPath (path : String) : Except Stop Unit :=
  if path.toList.contains '\x00' then .error (.failure .nullInPath) else .ok ()

/-- The place of a path given on the command line; an empty path leads nowhere. -/
def entryAt? (w : World) (path : String) : Option Entry :=
  if path.isEmpty then none
  else
    match w.disk.entryAt? (AbsolutePath.ofString w.here path) with
    | some (.file content) =>
      let last := path.toList.reverse.takeWhile (· != '/')
      if last = [] || last = ['.'] then none else some (.file content)
    | found => found

/-- A choice must be one of the words. -/
def checkChoice (spec : OptionSpec) (words : List String) (value : String) :
    Except Stop Unit :=
  if words.contains value then .ok ()
  else
    .error (.invalid spec.hint (Text.quoted value ++ " is not one of " ++
      ", ".intercalate (words.map Text.quoted) ++ "."))

/-- A number must be an integer. -/
def checkInteger (spec : OptionSpec) (value : String) : Except Stop Int :=
  match Text.integer? value with
  | some n => .ok n
  | none => .error (.invalid spec.hint (Text.quoted value ++ " is not a valid integer."))

/-- The path of the cache may lead nowhere yet, but not to a file. -/
def checkCacheDir (w : World) (value : String) : Except Stop Unit := do
  checkPath value
  match entryAt? w value with
  | some (.file _) =>
    throw (.invalid cacheDirOption.hint ("Directory " ++ Text.quoted value ++ " is a file."))
  | _ => return

/-- The path of the model must lead to a file. -/
def checkModelPath (w : World) (value : String) : Except Stop String := do
  let invalid reason :=
    Stop.invalid ("'" ++ modelPathParameter ++ "'") ("File " ++ Text.quoted value ++ reason)
  checkPath value
  match entryAt? w value with
  | some (.file content) => return content
  | some .directory => throw (invalid " is a directory.")
  | _ => throw (invalid " does not exist.")

/-- The cache directory: the last one given, else that of the environment, else the default. -/
def cacheDir (w : World) (a : Arguments) : String :=
  match (a.values .cacheDir).getLast? with
  | some value => value
  | none =>
    match w.«variables».lookup cacheDirVariable with
    | some value => if value.isEmpty then defaultCacheDir else value
    | none => defaultCacheDir

/-- The values of the options of the export command. -/
structure ExportSettings where
  /-- The content of the model's file. -/
  model : String
  format : String
  cacheDir : String
  namespaces : List String
  concurrency : Int

/-- The format: the last one given, else the first of all. -/
def format (a : Arguments) : String := (a.values .format).getLastD "ts"

/-- How many exports may be on their way together. -/
def concurrency (a : Arguments) : Except Stop Int :=
  match (a.values .concurrency).getLast? with
  | some value => checkInteger concurrencyOption value
  | none => .ok 20

/-- The check of one option of the export command. -/
def checkOption (w : World) (a : Arguments) : OptionName → Except Stop Unit
  | .format => checkChoice formatOption ["ts", "js"] (format a)
  | .cacheDir => checkCacheDir w (cacheDir w a)
  | .concurrency => discard (concurrency a)
  | _ => .ok ()

/-- Nothing may be left of the arguments. -/
def checkRest (others : List String) : Except Stop Unit :=
  if others.isEmpty then .ok () else .error (.misuse (.extraArguments others))

/-- The values of the export command. The options given are checked in the order in which they were
given, then the model's path, then the cache directory if it was not given. -/
def exportSettings (w : World) (a : Arguments) : Except Stop ExportSettings := do
  a.order.forM (checkOption w a)
  match a.others with
  | [] => throw (.misuse (.missingArgument modelPathParameter))
  | path :: others =>
    let model ← checkModelPath w path
    checkCacheDir w (cacheDir w a)
    checkRest others
    return { model, format := format a, cacheDir := cacheDir w a
             namespaces := a.values .namespaces, concurrency := (← concurrency a) }

/-- The cache directory that the clean command is about. -/
def cleanSettings (w : World) (a : Arguments) : Except Stop String := do
  checkCacheDir w (cacheDir w a)
  checkRest a.others
  return cacheDir w a

/-- A cache on the disk, with its root at a path given on the command line. -/
def cacheAt (w : World) (path : String) : Cache :=
  { root := AbsolutePath.ofString w.here path, disk := w.disk, draws := w.draws }

/-- The lines for the failed exports of a report, by name. -/
def failureLines (r : Report) : Except ShapeError String := do
  let failed ← Json.sortOn Prod.fst r.failed
  return String.join (failed.map fun (name, message) =>
    Text.plain ("  FAILED " ++ name.display ++ ": " ++ message ++ "\n"))

/-- A command that ends in a failure nothing took care of. -/
def escape (disk : Disk) (output : String) (e : Failure) : Outcome :=
  { code := 1, output, escaped := some e, disk }

/-- What a report says at the end of an export. Where documents were exported, an empty line comes
first. -/
def concludeExport (disk : Disk) (r : Report) : Outcome :=
  let done := (if r.total = 0 then "" else "\n") ++ "\n[DONE] Export Complete\n"
  match r.summary with
  | .error e => escape disk done (.range e)
  | .ok summary =>
    let output := done ++ summary ++ "\n"
    match failureLines r with
    | .error e => escape disk output (.shape e)
    | .ok lines =>
      { code := if r.failed.isEmpty then 0 else 1, output := output ++ lines, disk }

/-- What is asked of a cache to export a model. -/
def exportRequest (w : World) (s : ExportSettings) : ExportRequest :=
  { format := s.format, concurrency := s.concurrency, roots := .list (s.namespaces.map .string)
    start := w.start, finish := w.finish }

/-- Exports a model. Only after the exports it can turn out that the time they took cannot be
told. -/
def runExport (w : World) (s : ExportSettings) : Outcome :=
  match Schema.ofBytes s.model.toUTF8.toList with
  | .error e => escape w.disk "" e
  | .ok schema =>
    let (result, c) := (Cache.exportAll (exportRequest w s) schema).run (cacheAt w s.cacheDir)
    match result with
    | .error (.range e) => escape c.disk "\n" (.range e)
    | .error e => escape c.disk "" e
    | .ok report => concludeExport c.disk report

/-- Removes what is left over in a cache directory. -/
def runClean (w : World) (dir : String) : Outcome :=
  match (Cache.clean w.walk fun _ => false).run (cacheAt w dir) with
  | (.error e, c) => escape c.disk "" e
  | (.ok removed, c) =>
    { output := "Removed " ++ toString removed ++ " files.\n", disk := c.disk }

/-- A command line that makes no sense. What it holds is shown without terminal sequences. -/
def refuse (w : World) (usageLine command : String) (e : UsageError) : Outcome :=
  let errors := String.ofList (Text.withoutSequences (showError usageLine command e).toList)
  { code := 2, errors, disk := w.disk }

/-- A command that is not run. -/
def Stop.outcome (w : World) (refused : UsageError → Outcome) : Stop → Outcome
  | .misuse e => refused e
  | .failure e => escape w.disk "" e

/-- Runs a command with its arguments. -/
def Name.run (name : Name) (w : World) (args : List String) : Outcome :=
  let refused := refuse w name.usageLine (program ++ " " ++ name.word)
  match Arguments.parse name.options true args with
  | .error e => refused e
  | .ok a =>
    if a.has .help then { output := name.help, disk := w.disk }
    else
      match name with
      | .exportModel =>
        match exportSettings w a with
        | .error e => e.outcome w refused
        | .ok settings => runExport w settings
      | .clean =>
        match cleanSettings w a with
        | .error e => e.outcome w refused
        | .ok dir => runClean w dir

/-- What the options before a command ask for, if anything: the version or the help text, whichever
comes first. -/
def groupAnswer? (w : World) (a : Arguments) : Option Outcome :=
  match a.order with
  | .version :: _ =>
    some { output := program ++ ", version " ++ version ++ "\n", disk := w.disk }
  | .help :: _ => some { output := groupHelp, disk := w.disk }
  | _ => none

/-- Runs a command line. A first argument that is no command is read as options once more, since
options may stand there after two dashes. -/
def invoke (w : World) (args : List String) : Outcome :=
  let refused := refuse w groupUsageLine program
  if args.isEmpty then { code := 2, errors := groupHelp, disk := w.disk }
  else
    match Arguments.parse groupOptions false args with
    | .error e => refused e
    | .ok a =>
      match groupAnswer? w a with
      | some outcome => outcome
      | none =>
        match a.others with
        | [] => refused .missingCommand
        | word :: rest =>
          match Name.ofWord? word with
          | some name => name.run w rest
          | none =>
            match Arguments.parse groupOptions false a.others with
            | .error e => refused e
            | .ok again => (groupAnswer? w again).getD (refused (.noSuchCommand word))

/-- The paths that a command line looks at: that of the model and that of the cache. -/
def paths (w : World) (args : List String) : List AbsolutePath :=
  match Arguments.parse groupOptions false args with
  | .error _ => []
  | .ok a =>
    match a.others with
    | [] => []
    | word :: rest =>
      match Name.ofWord? word with
      | none => []
      | some name =>
        match Arguments.parse name.options true rest with
        | .error _ => []
        | .ok a =>
          (a.others.take 1 ++ [cacheDir w a]).map fun path => AbsolutePath.ofString w.here path

theorem disk_concludeExport (disk : Disk) (r : Report) : (concludeExport disk r).disk = disk := by
  unfold concludeExport
  cases r.summary with
  | error e => rfl
  | ok summary =>
    cases hlines : failureLines r with
    | error e => simp [escape]
    | ok lines => simp

theorem disk_runExport_finish (w : World) (finish : Number) (s : ExportSettings) :
    (runExport { w with finish } s).disk = (runExport w s).disk := by
  have hdisk : ∀ w : World, (runExport w s).disk = match Schema.ofBytes s.model.toUTF8.toList with
      | .error _ => w.disk
      | .ok schema =>
        ((Cache.exportAll (exportRequest w s) schema).run (cacheAt w s.cacheDir)).2.disk := by
    intro w
    unfold runExport
    cases Schema.ofBytes s.model.toUTF8.toList with
    | error e => rfl
    | ok schema =>
      dsimp only
      generalize (Cache.exportAll (exportRequest w s) schema).run (cacheAt w s.cacheDir) = outcome
      obtain ⟨result, c⟩ := outcome
      cases result with
      | error e => cases e <;> rfl
      | ok report => exact disk_concludeExport c.disk report
  rw [hdisk, hdisk]
  cases Schema.ofBytes s.model.toUTF8.toList with
  | error e => rfl
  | ok schema =>
    exact congrArg Cache.disk
      (Cache.snd_run_exportAll_finish (exportRequest w s) finish schema (cacheAt w s.cacheDir))

theorem disk_run_finish (name : Name) (w : World) (finish : Number) (args : List String) :
    (name.run { w with finish } args).disk = (name.run w args).disk := by
  unfold Name.run
  dsimp only
  cases Arguments.parse name.options true args with
  | error e => rfl
  | ok a =>
    dsimp only
    split
    · rfl
    · cases name with
      | clean => rfl
      | exportModel =>
        have hsettings : exportSettings { w with finish } a = exportSettings w a := rfl
        dsimp only
        rw [hsettings]
        cases exportSettings w a with
        | error e => cases e <;> rfl
        | ok settings => exact disk_runExport_finish w finish settings

/-- What is on the disk after a command line does not depend on when it ends. -/
theorem disk_invoke_finish (w : World) (finish : Number) (args : List String) :
    (invoke { w with finish } args).disk = (invoke w args).disk := by
  have hanswer : groupAnswer? { w with finish } = groupAnswer? w := rfl
  have hrefuse : refuse { w with finish } = refuse w := rfl
  unfold invoke
  rw [hrefuse, hanswer]
  dsimp only
  split
  · rfl
  · cases Arguments.parse groupOptions false args with
    | error e => rfl
    | ok a =>
      dsimp only
      cases groupAnswer? w a with
      | some outcome => rfl
      | none =>
        dsimp only
        cases a.others with
        | nil => rfl
        | cons word rest =>
          dsimp only
          cases Name.ofWord? word with
          | some name => exact disk_run_finish name w finish rest
          | none => rfl

end Command

end SchemaArtifacts
