import SchemaArtifacts.Json.Value
import SchemaArtifacts.Text.Quoted

/-!
# Showing values

How a value stands in a text: a text as it is, anything else in its literal form. Inside a literal
form texts are quoted.

## Main definitions

* `Json.literal` — the literal form
* `Json.display` — the form inside a text
-/

namespace SchemaArtifacts.Json

mutual

/-- The literal form. -/
def literal : Json → String
  | .null => "None"
  | .bool true => "True"
  | .bool false => "False"
  | .number n => n.text
  | .string s => Text.quoted s
  | .list items => "[" ++ ", ".intercalate (literals items) ++ "]"
  | .object fields => (String.singleton '{' ++ ", ".intercalate (literalFields fields)).push '}'

/-- The literal forms of the items of a list. -/
def literals : List Json → List String
  | [] => []
  | a :: rest => literal a :: literals rest

/-- The literal forms of the fields of an object. -/
def literalFields : List (String × Json) → List String
  | [] => []
  | (name, a) :: rest => (Text.quoted name ++ ": " ++ literal a) :: literalFields rest

end

/-- The form inside a text. -/
def display : Json → String
  | .string s => s
  | a => literal a

@[simp] theorem display_string (s : String) : display (.string s) = s := rfl

end SchemaArtifacts.Json
