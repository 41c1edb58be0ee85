import SchemaArtifacts.Text.Quoted
import SchemaArtifacts.Text.Similar

/-!
# Options of a command line

An option has a long name and maybe a one-letter name. A value stands behind an equals sign,
directly behind the letter, or as the next argument. Letters can be put together. Two dashes alone
end the options.

## Main definitions

* `OptionName`, `OptionSpec` — the options of the commands
* `UsageError` — a command line that makes no sense, with `UsageError.message`
* `Arguments` — options with their values, and what else was given
* `Arguments.parse` — reading
-/

namespace SchemaArtifacts.Command

/-- What an option is about. -/
inductive OptionName where
  | version
  | help
  | format
  | cacheDir
  | namespaces
  | concurrency
  | verbose
  deriving Repr, DecidableEq

/-- How an option is given. -/
structure OptionSpec where
  name : OptionName
  /-- The long name with its dashes. -/
  long : String
  short : Option Char := none
  takesValue : Bool := true
  /-- How messages call the option, where its names are not enough. -/
  note : String := ""

/-- Why a command line makes no sense. -/
inductive UsageError where
  | noSuchOption (given : String) (similar : List String)
  | missingValue (given : String)
  | unexpectedValue (given : String)
  | invalid (parameter reason : String)
  | missingArgument (parameter : String)
  | extraArguments (given : List String)
  | missingCommand
  | noSuchCommand (given : String)
  deriving Repr, DecidableEq

namespace UsageError

/-- The text of an error. -/
def message : UsageError → String
  | .noSuchOption given similar =>
    let hint := match similar with
      | [] => ""
      | [one] => " Did you mean " ++ one ++ "?"
      | many => " (Possible options: " ++ ", ".intercalate many ++ ")"
    "No such option: " ++ given ++ hint
  | .missingValue given => "Option " ++ Text.quoted given ++ " requires an argument."
  | .unexpectedValue given => "Option " ++ Text.quoted given ++ " does not take a value."
  | .invalid parameter reason => "Invalid value for " ++ parameter ++ ": " ++ reason
  | .missingArgument parameter => "Missing argument '" ++ parameter ++ "'."
  | .extraArguments given =>
    "Got unexpected extra argument" ++ (if given.length = 1 then "" else "s") ++ " (" ++
      " ".intercalate given ++ ")"
  | .missingCommand => "Missing command."
  | .noSuchCommand given => "No such command " ++ Text.quoted given ++ "."

/-- An error in how an option is given is shown without the usage of the command. -/
def showsUsage : UsageError → Bool
  | .missingValue _ => false
  | .unexpectedValue _ => false
  | _ => true

end UsageError

/-- An option that was given, with its value. -/
structure Given where
  name : OptionName
  value : String := ""
  deriving Repr, DecidableEq

/-- What was given to a command. -/
structure Arguments where
  options : List Given := []
  others : List String := []
  deriving Repr, DecidableEq

namespace Arguments

/-- An option by its long name, with a value behind an equals sign or in the next argument; also
whether the next argument was used up. -/
def long (specs : List OptionSpec) (given : String) (attached next : Option String) :
    Except UsageError (List Given × Bool) :=
  match specs.find? fun spec => spec.long == given with
  | none => .error (.noSuchOption given (Text.similar given (specs.map OptionSpec.long)))
  | some spec =>
    match spec.takesValue, attached, next with
    | true, some value, _ => .ok ([{ name := spec.name, value }], false)
    | true, none, some value => .ok ([{ name := spec.name, value }], true)
    | true, none, none => .error (.missingValue given)
    | false, some _, _ => .error (.unexpectedValue given)
    | false, none, _ => .ok ([{ name := spec.name }], false)

/-- Options by their letters. The first that takes a value takes the rest of the letters, or the
next argument. -/
def short (specs : List OptionSpec) (next : Option String) :
    List Char → Except UsageError (List Given × Bool)
  | [] => .ok ([], false)
  | c :: rest =>
    let given := String.ofList ['-', c]
    match specs.find? fun spec => spec.short == some c with
    | none => .error (.noSuchOption given [])
    | some spec =>
      if spec.takesValue then
        match rest, next with
        | [], some value => .ok ([{ name := spec.name, value }], true)
        | [], none => .error (.missingValue given)
        | value, _ => .ok ([{ name := spec.name, value := String.ofList value }], false)
      else do
        let (others, used) ← short specs next rest
        return ({ name := spec.name } :: others, used)

/-- The options of one argument that starts with a dash, and whether the next argument was used
up. -/
def optionsOf (specs : List OptionSpec) (arg : String) (next : Option String) :
    Except UsageError (List Given × Bool) :=
  match arg.toList with
  | '-' :: '-' :: _ =>
    let name := arg.toList.takeWhile (· != '=')
    let attached := (arg.toList.drop name.length).tail?.map String.ofList
    long specs (String.ofList name) attached next
  | letters => short specs next letters.tail

/-- An argument that starts with a dash and holds more than that. -/
def isOption (arg : String) : Bool := arg.toList.head? = some '-' && 1 < arg.length

/-- Reads arguments. Options may stand between others if they are `interspersed`; else the first
other argument ends them. -/
def parse (specs : List OptionSpec) (interspersed : Bool) (args : List String) :
    Except UsageError Arguments :=
  match args with
  | [] => .ok {}
  | arg :: rest =>
    if arg = "--" then .ok { others := rest }
    else if isOption arg then do
      let (given, used) ← optionsOf specs arg rest.head?
      let later ← parse specs interspersed (if used then rest.tail else rest)
      return { later with options := given ++ later.options }
    else if interspersed then do
      let later ← parse specs interspersed rest
      return { later with others := arg :: later.others }
    else .ok { others := arg :: rest }
termination_by args.length
decreasing_by
  · split <;> simp only [List.length_tail, List.length_cons] <;> omega
  · simp only [List.length_cons]; omega

/-- The values given for an option, in order. -/
def values (a : Arguments) (name : OptionName) : List String :=
  (a.options.filter fun given => given.name = name).map Given.value

/-- The option was given. -/
def has (a : Arguments) (name : OptionName) : Bool := a.options.any fun given => given.name = name

/-- The options that were given, in the order in which each was given first. -/
def order (a : Arguments) : List OptionName := (a.options.map Given.name).eraseDups

end Arguments

end SchemaArtifacts.Command
