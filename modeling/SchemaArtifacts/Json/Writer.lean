import SchemaArtifacts.Json.Value
import SchemaArtifacts.Text.Hex

/-!
# Writing descriptions

A value is written over several lines, two blanks further in for each level, in visible ASCII
characters only. Anything else in a text becomes an escape by code unit.

## Main definitions

* `Json.writeText` — a text literal
* `Json.keyText` — the text that a key is written as
* `Json.write` — a value, its parts on lines of their own

## Main results

* `Json.write_list_nil`, `Json.write_object_nil` — nothing stands between the brackets of what is
  empty
-/

namespace SchemaArtifacts.Json

/-- An escape by code unit. -/
def unitEscape (n : Nat) : List Char := '\\' :: 'u' :: Text.hexNumeral 4 n

/-- A character inside a text literal. -/
def writeChar (c : Char) : List Char :=
  if c = '"' || c = '\\' then ['\\', c]
  else if ' ' ≤ c && c ≤ '~' then [c]
  else if c = '\n' then ['\\', 'n']
  else if c = '\r' then ['\\', 'r']
  else if c = '\t' then ['\\', 't']
  else if c = Char.ofNat 8 then ['\\', 'b']
  else if c = Char.ofNat 12 then ['\\', 'f']
  else if c.toNat < 0x10000 then unitEscape c.toNat
  else
    let n := c.toNat - 0x10000
    unitEscape (0xd800 + n / 0x400) ++ unitEscape (0xdc00 + n % 0x400)

/-- A text literal. -/
def writeText (s : String) : List Char := '"' :: s.toList.flatMap writeChar ++ ['"']

/-- A number; what is not finite is a word. -/
def writeNumber : Number → List Char
  | .real .nan => "NaN".toList
  | .real (.infinity false) => "Infinity".toList
  | .real (.infinity true) => "-Infinity".toList
  | n => n.text.toList

/-- The text that a key is written as. -/
def keyText : Json → String
  | .string s => s
  | .null => "null"
  | .bool b => if b then "true" else "false"
  | .number n => String.ofList (writeNumber n)
  | _ => ""

/-- A new line at a level. -/
def newLine (level : Nat) : List Char := '\n' :: List.replicate (2 * level) ' '

mutual

/-- A value whose parts stand one level further in than `level`. -/
def write (level : Nat) : Json → List Char
  | .null => "null".toList
  | .bool b => (if b then "true" else "false").toList
  | .number n => writeNumber n
  | .string s => writeText s
  | .list [] => ['[', ']']
  | .list (a :: rest) =>
    '[' :: newLine (level + 1) ++ write (level + 1) a ++ writeItems (level + 1) rest ++
      newLine level ++ [']']
  | .object [] => ['{', '}']
  | .object ((name, a) :: rest) =>
    '{' :: newLine (level + 1) ++ writeText name ++ [':', ' '] ++ write (level + 1) a ++
      writeFields (level + 1) rest ++ newLine level ++ ['}']

/-- The further items of a list. -/
def writeItems (level : Nat) : List Json → List Char
  | [] => []
  | a :: rest => ',' :: newLine level ++ write level a ++ writeItems level rest

/-- The further fields of an object. -/
def writeFields (level : Nat) : List (String × Json) → List Char
  | [] => []
  | (name, a) :: rest =>
    ',' :: newLine level ++ writeText name ++ [':', ' '] ++ write level a ++ writeFields level rest

end

@[simp] theorem write_list_nil (level : Nat) : write level (.list []) = ['[', ']'] := by
  rw [write]

@[simp] theorem write_object_nil (level : Nat) : write level (.object []) = ['{', '}'] := by
  rw [write]

end SchemaArtifacts.Json
