import SchemaArtifacts.Number.Basic

/-!
# Descriptions

A schema is described by a value of strings, numbers, lists and objects. An object keeps its fields
in order. Nothing promises that a value has the shape its reader expects.

## Main definitions

* `Json` — a value
* `Json.isTruthy` — the value counts as true where a condition is asked for
* `Json.isKey`, `Json.sameKey` — which values can be looked up, and when two are the same key
* `Json.find?`, `Json.insert` — reading and setting an entry of a table
* `Json.field?`, `Json.setField` — reading and setting a field of an object

## Main results

* `Json.sameKey_string` — two texts are the same key exactly when they are equal
* `Json.field?_setField_self`, `Json.field?_setField_ne` — what setting a field changes
-/

namespace SchemaArtifacts

/-- A value. -/
inductive Json where
  | null
  | bool (b : Bool)
  | number (n : Number)
  | string (s : String)
  | list (items : List Json)
  | object (fields : List (String × Json))

namespace Json

instance : Inhabited Json := ⟨.null⟩

/-- An integer. -/
abbrev int (n : Int) : Json := .number (.int n)

/-- The word for a value's kind. -/
def kind : Json → String
  | .null => "NoneType"
  | .bool _ => "bool"
  | .number (.int _) => "int"
  | .number (.real _) => "float"
  | .string _ => "str"
  | .list _ => "list"
  | .object _ => "dict"

/-- False are null, `false`, zeros and whatever is empty. -/
def isTruthy : Json → Bool
  | .null => false
  | .bool b => b
  | .number n => !n.isZero
  | .string s => !s.isEmpty
  | .list items => !items.isEmpty
  | .object fields => !fields.isEmpty

/-- Lists and objects cannot be looked up. -/
def isKey : Json → Bool
  | .list _ => false
  | .object _ => false
  | _ => true

/-- The number that a flag or a number stands for. -/
def toNumber? : Json → Option Number
  | .bool b => some (.int (if b then 1 else 0))
  | .number n => some n
  | _ => none

/-- The number is no number. -/
def isNan : Number → Bool
  | .real .nan => true
  | _ => false

/-- Two values are the same key: null, equal texts, or flags and numbers of equal value. -/
def sameKey : Json → Json → Bool
  | .null, .null => true
  | .string s, .string t => s == t
  | a, b =>
    match a.toNumber?, b.toNumber? with
    | some m, some n => m.sameValue n || isNan m && isNan n
    | _, _ => false

/-- The value under a key in a table. -/
def find? {α : Type} (key : Json) : List (Json × α) → Option α
  | [] => none
  | (k, a) :: rest => if k.sameKey key then some a else find? key rest

/-- Sets the value under a key in a table: a known key keeps its place and its spelling, a new one
goes to the end. -/
def insert {α : Type} (key : Json) (a : α) : List (Json × α) → List (Json × α)
  | [] => [(key, a)]
  | (k, b) :: rest => if k.sameKey key then (k, a) :: rest else (k, b) :: insert key a rest

/-- The field of an object. -/
def field? (name : String) : List (String × Json) → Option Json
  | [] => none
  | (k, a) :: rest => if k = name then some a else field? name rest

/-- Sets a field: a known one keeps its place, a new one goes to the end. -/
def setField (name : String) (a : Json) : List (String × Json) → List (String × Json)
  | [] => [(name, a)]
  | (k, b) :: rest => if k = name then (k, a) :: rest else (k, b) :: setField name a rest

@[simp] theorem sameKey_string (s t : String) : sameKey (.string s) (.string t) = (s == t) := rfl

@[simp] theorem field?_setField_self (name : String) (a : Json) (fields : List (String × Json)) :
    field? name (setField name a fields) = some a := by
  induction fields with
  | nil => simp [setField, field?]
  | cons f rest ih =>
    by_cases h : f.1 = name
    · simp [setField, field?, h]
    · simp [setField, field?, h, ih]

theorem field?_setField_ne {name other : String} (h : other ≠ name) (a : Json)
    (fields : List (String × Json)) :
    field? other (setField name a fields) = field? other fields := by
  induction fields with
  | nil => simp [setField, field?, Ne.symm h]
  | cons f rest ih =>
    by_cases hf : f.1 = name
    · simp [setField, field?, hf, Ne.symm h]
    · by_cases ho : f.1 = other
      · subst ho; simp [setField, field?, hf]
      · simp [setField, field?, hf, ho, ih]

end Json

end SchemaArtifacts
