import SchemaArtifacts.Json.Display

/-!
# Values of the wrong shape

A reader that meets a value it has no use for says what it missed. Each way to look into a value is
here, with the error it ends in.

## Main definitions

* `ShapeError` — why a value is of no use, with `ShapeError.message`
* `Json.lookup`, `Json.fieldOr` — a field that must be there, and one that may be missing
* `Json.elements` — what a value holds when it is walked through
* `Json.pairs` — the entries of a value that stands for a table
* `Json.concat` — a value with a text put behind it

## Main results

* `Json.elements_list` — a list is walked through item by item
-/

namespace SchemaArtifacts

/-- Why a value is of no use. -/
inductive ShapeError where
  /-- A kind of value lacks an attribute. -/
  | noAttribute (kind property : String)
  | notIterable (kind : String)
  | notSubscriptable (kind : String)
  /-- A field was asked of a text. -/
  | fieldOfText
  /-- A field was asked of a list. -/
  | fieldOfList
  | missingKey (key : Json)
  /-- An entry of a table is no sequence. -/
  | entryKind (index : Nat)
  /-- An entry of a table has not two parts. -/
  | entrySize (index size : Nat)
  | unhashable (kind : String)
  /-- Two kinds of values have no order. -/
  | unordered (left right : String)
  /-- Nothing can be put behind a kind of value. -/
  | noSum (left right : String)
  /-- Only a list can be put behind a list. -/
  | listSum (right : String)

namespace ShapeError

/-- The text of an error. -/
def message : ShapeError → String
  | .noAttribute kind property => "'" ++ kind ++ "' object has no attribute '" ++ property ++ "'"
  | .notIterable kind => "'" ++ kind ++ "' object is not iterable"
  | .notSubscriptable kind => "'" ++ kind ++ "' object is not subscriptable"
  | .fieldOfText => "string indices must be integers, not 'str'"
  | .fieldOfList => "list indices must be integers or slices, not str"
  | .missingKey key => key.literal
  | .entryKind index =>
    "cannot convert dictionary update sequence element #" ++ toString index ++ " to a sequence"
  | .entrySize index size =>
    "dictionary update sequence element #" ++ toString index ++ " has length " ++ toString size ++
      "; 2 is required"
  | .unhashable kind => "unhashable type: '" ++ kind ++ "'"
  | .unordered left right =>
    "'<' not supported between instances of '" ++ left ++ "' and '" ++ right ++ "'"
  | .noSum left right =>
    "unsupported operand type(s) for +: '" ++ left ++ "' and '" ++ right ++ "'"
  | .listSum right => "can only concatenate list (not \"" ++ right ++ "\") to list"

end ShapeError

namespace Json

/-- The fields of an object. -/
def fields (a : Json) : Except ShapeError (List (String × Json)) :=
  match a with
  | .object fields => .ok fields
  | _ => .error (.noAttribute a.kind "get")

/-- A field that must be there. -/
def lookup (a : Json) (name : String) : Except ShapeError Json :=
  match a with
  | .object fields => (field? name fields).elim (.error (.missingKey (.string name))) .ok
  | .list _ => .error .fieldOfList
  | .string _ => .error .fieldOfText
  | _ => .error (.notSubscriptable a.kind)

/-- A field that may be missing. -/
def fieldOr (a : Json) (name : String) (default : Json) : Except ShapeError Json :=
  a.fields.map fun fields => (field? name fields).getD default

/-- What a value holds, if it holds anything: the items of a list, the characters of a text, the
names of the fields of an object. -/
def elements? : Json → Option (List Json)
  | .list items => some items
  | .string s => some (s.toList.map fun c => .string (String.singleton c))
  | .object fields => some (fields.map fun f => .string f.1)
  | _ => none

/-- What a value holds when it is walked through. -/
def elements (a : Json) : Except ShapeError (List Json) :=
  a.elements?.elim (.error (.notIterable a.kind)) .ok

/-- A value that can be looked up. -/
def asKey (a : Json) : Except ShapeError Json :=
  if a.isKey then .ok a else .error (.unhashable a.kind)

/-- The table of a sequence of two-part entries, after those already known; `index` counts them. -/
def pairsFrom (index : Nat) (known : List (Json × Json)) :
    List Json → Except ShapeError (List (Json × Json))
  | [] => .ok known
  | entry :: rest =>
    match entry.elements? with
    | none => .error (.entryKind index)
    | some [key, a] => do
      let key ← key.asKey
      pairsFrom (index + 1) (insert key a known) rest
    | some parts => .error (.entrySize index parts.length)

/-- The entries of a value that stands for a table: an object, or a sequence of two-part entries. -/
def pairs (a : Json) : Except ShapeError (List (Json × Json)) :=
  match a with
  | .object fields => .ok (fields.map fun f => (.string f.1, f.2))
  | _ => do pairsFrom 0 [] (← a.elements)

/-- A value with a text put behind it; only a text can have one. -/
def concat (a : Json) (last : String) : Except ShapeError String :=
  match a with
  | .string s => .ok (s ++ last)
  | .list _ => .error (.listSum "str")
  | _ => .error (.noSum a.kind "str")

/-- The text that a value is, for use as a name. -/
def asName (a : Json) (property : String) : Except ShapeError String :=
  match a with
  | .string s => .ok s
  | _ => .error (.noAttribute a.kind property)

@[simp] theorem elements_list (items : List Json) : elements (.list items) = .ok items := rfl

@[simp] theorem lookup_object (fields : List (String × Json)) (name : String) :
    lookup (.object fields) name =
      (field? name fields).elim (.error (.missingKey (.string name))) .ok := rfl

end Json

end SchemaArtifacts
