import SchemaArtifacts.Json.Literal

/-!
# Reading descriptions

A text holds one value, with blanks around it. Numbers may also be `NaN`, `Infinity` and
`-Infinity`. Of fields that share a name the last one wins and the first one gives the place.

## Main definitions

* `Json.skipBlanks` — the rest of a text after blanks
* `Json.readValue`, `Json.readItems`, `Json.readFields` — values and their parts
* `Json.parse` — the value of a whole text
-/

namespace SchemaArtifacts.Json

/-- Blanks are the space, the tab, the line feed and the carriage return. -/
def isBlank (c : Char) : Bool := c = ' ' || c = '\t' || c = '\n' || c = '\r'

/-- The rest of a text after its leading blanks. -/
def skipBlanks (s : List Char) : List Char := s.dropWhile isBlank

/-- The words that stand for a value. -/
def words : List (String × Json) :=
  [("null", .null), ("true", .bool true), ("false", .bool false), ("NaN", .number (.real .nan)),
    ("Infinity", .number (.real (.infinity false))),
    ("-Infinity", .number (.real (.infinity true)))]

/-- A word. -/
def readWord? (s : List Char) : Option (Json × List Char) :=
  words.findSome? fun (word, a) =>
    if word.toList.isPrefixOf s then some (a, s.drop word.length) else none

/-- A text, a word or a number. -/
def readScalar (s : List Char) : Except Problem (Json × List Char) :=
  match s with
  | '"' :: rest => (readText s rest).map fun (text, last) => (.string (String.ofList text), last)
  | _ =>
    match readWord? s with
    | some found => .ok found
    | none => (readNumber s).map fun (n, rest) => (.number n, rest)

mutual

/-- A value whose nesting and length the first argument bounds. -/
def readValue : Nat → List Char → Except Problem (Json × List Char)
  | 0, s => fail .value s
  | bound + 1, s =>
    match s with
    | '[' :: rest =>
      match skipBlanks rest with
      | ']' :: last => .ok (.list [], last)
      | first => (readItems bound first).map fun (items, last) => (.list items, last)
    | '{' :: rest =>
      match skipBlanks rest with
      | '}' :: last => .ok (.object [], last)
      | first => (readFields bound [] first).map fun (fields, last) => (.object fields, last)
    | _ => readScalar s

/-- The items of a list up to its closing bracket; at least one. -/
def readItems : Nat → List Char → Except Problem (List Json × List Char)
  | 0, s => fail .value s
  | bound + 1, s => do
    let (a, rest) ← readValue bound s
    match skipBlanks rest with
    | ']' :: last => return ([a], last)
    | ',' :: next =>
      let (items, last) ← readItems bound (skipBlanks next)
      return (a :: items, last)
    | other => fail .comma other

/-- The fields of an object up to its closing brace, after those already read; at least one. -/
def readFields : Nat → List (String × Json) → List Char →
    Except Problem (List (String × Json) × List Char)
  | 0, _, s => fail .propertyName s
  | bound + 1, known, s => do
    match s with
    | '"' :: rest =>
      let (name, rest) ← readText s rest
      match skipBlanks rest with
      | ':' :: rest =>
        let (a, rest) ← readValue bound (skipBlanks rest)
        let known := setField (String.ofList name) a known
        match skipBlanks rest with
        | '}' :: last => return (known, last)
        | ',' :: next => readFields bound known (skipBlanks next)
        | other => fail .comma other
      | other => fail .colon other
    | _ => fail .propertyName s

end

/-- The value of a text, with an error at a rest of the text. -/
def readWhole (s : List Char) : Except Problem Json := do
  if s.head? = some (Char.ofNat 0xfeff) then throw (.malformed .byteOrderMark s)
  let (a, rest) ← readValue (2 * s.length + 2) (skipBlanks s)
  let rest := skipBlanks rest
  if rest.isEmpty then return a else throw (.malformed .extraData rest)

/-- The value of a text. -/
def parse (s : List Char) : Except (ReadError Place) Json :=
  (readWhole s).mapError (ReadError.map (Place.before s))

end SchemaArtifacts.Json
