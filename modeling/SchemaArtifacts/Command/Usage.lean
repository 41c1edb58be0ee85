import SchemaArtifacts.Command.Option
import SchemaArtifacts.Format.Basic

/-!
# Usage

## Main definitions

* `Command.Name` — the commands, with `Command.Name.word`
* `Command.groupOptions`, `Command.Name.options` — the options
* `Command.groupHelp`, `Command.Name.help` — the help texts
* `Command.showError` — the text of an error

## Main results

* `Command.Name.ofWord?_word` — the word for a command stands for it
-/

namespace SchemaArtifacts.Command

/-- The name of the program. -/
def program : String := "schema-export"

/-- The version of the program. -/
def version : String := "1.0.0"

/-- The environment variable that gives the cache directory. -/
def cacheDirVariable : String := "SCHEMA_EXPORT_CACHE_DIR"

/-- The directory of the cache where nothing else is said. -/
def defaultCacheDir : String := "./schema_cache"

/-- The commands. -/
inductive Name where
  | exportModel
  | clean
  deriving Repr, DecidableEq

/-- The word for a command. -/
def Name.word : Name → String
  | .exportModel => "export"
  | .clean => "clean"

/-- The command that a word stands for. -/
def Name.ofWord? (word : String) : Option Name :=
  [exportModel, clean].find? fun name => name.word == word

/-- The option that asks for help. -/
def helpOption : OptionSpec := { name := .help, long := "--help", takesValue := false }

/-- The options before a command. -/
def groupOptions : List OptionSpec :=
  [{ name := .version, long := "--version", takesValue := false }, helpOption]

/-- The option for the cache directory. -/
def cacheDirOption : OptionSpec :=
  { name := .cacheDir, long := "--cache-dir", short := some 'c'
    note := " (env var: '" ++ cacheDirVariable ++ "')" }

/-- The option for the format. -/
def formatOption : OptionSpec := { name := .format, long := "--format", short := some 'f' }

/-- The option for the number of exports on their way together. -/
def concurrencyOption : OptionSpec := { name := .concurrency, long := "--concurrency" }

/-- The options of a command. -/
def Name.options : Name → List OptionSpec
  | .exportModel =>
    [formatOption, cacheDirOption,
      { name := .namespaces, long := "--namespace", short := some 'n' }, concurrencyOption,
      { name := .verbose, long := "--verbose", short := some 'v', takesValue := false }, helpOption]
  | .clean => [cacheDirOption, helpOption]

/-- How messages call an option. -/
def OptionSpec.hint (spec : OptionSpec) : String :=
  "'" ++ spec.long ++ "'" ++
    (spec.short.elim "" fun c => " / '" ++ String.ofList ['-', c] ++ "'") ++ spec.note

/-- The name of the argument of the export command. -/
def modelPathParameter : String := "MODEL_PATH"

/-- The usage of the program. -/
def groupUsageLine : String := "Usage: " ++ program ++ " [OPTIONS] COMMAND [ARGS]..."

/-- The usage of a command. -/
def Name.usageLine (name : Name) : String :=
  "Usage: " ++ program ++ " " ++ name.word ++ " [OPTIONS]" ++
    (match name with
      | .exportModel => " " ++ modelPathParameter
      | .clean => "")

/-- The help text of the program. -/
def groupHelp : String := joinLines
  [groupUsageLine,
    "",
    "  Schema Export — Generate TypeScript/JavaScript sources from schema namespaces.",
    "",
    "Options:",
    "  --version  Show the version and exit.",
    "  --help     Show this message and exit.",
    "",
    "Commands:",
    "  clean   Remove empty artifacts and leftover temporary files from the cache.",
    "  export  Export every namespace of a resolved schema model.",
    ""]

/-- The help text of a command. -/
def Name.help : Name → String
  | .exportModel => joinLines
    [Name.exportModel.usageLine,
      "",
      "  Export every namespace of a resolved schema model.",
      "",
      "Options:",
      "  -f, --format [ts|js]       Output format.",
      "  -c, --cache-dir DIRECTORY  Cache directory receiving generated files.  [env",
      "                             var: SCHEMA_EXPORT_CACHE_DIR]",
      "  -n, --namespace TEXT       Namespace to export along with its imports",
      "                             (default: all).",
      "  --concurrency INTEGER      Maximum concurrent exports.",
      "  -v, --verbose              Enable verbose logging.",
      "  --help                     Show this message and exit.",
      ""]
  | .clean => joinLines
    [Name.clean.usageLine,
      "",
      "  Remove empty artifacts and leftover temporary files from the cache.",
      "",
      "Options:",
      "  -c, --cache-dir DIRECTORY  Cache directory to clean.  [env var:",
      "                             SCHEMA_EXPORT_CACHE_DIR]",
      "  --help                     Show this message and exit.",
      ""]

/-- The text of an error, below the usage of the command it is about. -/
def showError (usageLine command : String) (e : UsageError) : String :=
  let usage := if e.showsUsage then
      usageLine ++ "\nTry '" ++ command ++ " --help' for help.\n\n"
    else ""
  usage ++ "Error: " ++ e.message ++ "\n"

@[simp] theorem Name.ofWord?_word (name : Name) : ofWord? name.word = some name := by
  cases name <;> decide

end SchemaArtifacts.Command
