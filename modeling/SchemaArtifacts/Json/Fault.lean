/-!
# Faults of a description text

## Main definitions

* `Json.Fault` — what a reader of a description text can miss, with `Json.Fault.message`
* `Json.Place` — a place in a text by line, column and index
* `Json.Place.before` — the place where a rest of a text begins
* `Json.ReadError` — a fault at a place, or a number with too many digits
-/

namespace SchemaArtifacts.Json

/-- What is wrong with a description text. -/
inductive Fault where
  | value
  | propertyName
  | colon
  | comma
  | extraData
  | unterminated
  | controlCharacter
  | escape
  | unicodeEscape
  | byteOrderMark
  deriving Repr, DecidableEq

/-- The text of a fault. -/
def Fault.message : Fault → String
  | .value => "Expecting value"
  | .propertyName => "Expecting property name enclosed in double quotes"
  | .colon => "Expecting ':' delimiter"
  | .comma => "Expecting ',' delimiter"
  | .extraData => "Extra data"
  | .unterminated => "Unterminated string starting at"
  | .controlCharacter => "Invalid control character at"
  | .escape => "Invalid \\escape"
  | .unicodeEscape => "Invalid \\uXXXX escape"
  | .byteOrderMark => "Unexpected UTF-8 BOM (decode using utf-8-sig)"

/-- A place in a text. Lines and columns count from one, the index from zero. -/
structure Place where
  line : Nat
  column : Nat
  index : Nat
  deriving Repr, DecidableEq

/-- The place in `text` where its rest `rest` begins. -/
def Place.before (text rest : List Char) : Place :=
  let passed := text.take (text.length - rest.length)
  { line := passed.count '\n' + 1
    column := (passed.reverse.takeWhile (· != '\n')).length + 1
    index := passed.length }

/-- Why a text could not be read. While reading, a place is the rest of the text. -/
inductive ReadError (α : Type) where
  | malformed (fault : Fault) (place : α)
  /-- An integer has more digits than are read. -/
  | tooManyDigits (count : Nat)
  deriving Repr, DecidableEq

/-- The same error with its place seen otherwise. -/
def ReadError.map {α β : Type} (f : α → β) : ReadError α → ReadError β
  | .malformed fault place => .malformed fault (f place)
  | .tooManyDigits count => .tooManyDigits count

/-- The most digits that an integer may have. -/
def digitLimit : Nat := 4300

/-- The text of an error. -/
def ReadError.message : ReadError Place → String
  | .malformed fault place =>
    fault.message ++ ": line " ++ toString place.line ++ " column " ++ toString place.column ++
      " (char " ++ toString place.index ++ ")"
  | .tooManyDigits count =>
    "Exceeds the limit (" ++ toString digitLimit ++
      " digits) for integer string conversion: value has " ++ toString count ++
      " digits; use sys.set_int_max_str_digits() to increase the limit"

end SchemaArtifacts.Json
