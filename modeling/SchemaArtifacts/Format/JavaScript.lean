import SchemaArtifacts.Format.Basic
import SchemaArtifacts.Json.Writer

/-!
# JavaScript type tables

A document becomes a module that requires its imports and exports a table of its declarations by
name. Of declarations that share a name the last one wins and the first one gives the place.

## Main definitions

* `JavaScript.entry` — what the table holds for a declaration
* `JavaScript.table` — the table of a document
* `JavaScript.text` — the text of a document
* `Format.javaScript` — the format
-/

namespace SchemaArtifacts

namespace JavaScript

/-- What the table holds for a member. -/
def memberEntry (m : Member) : Json :=
  .object [("name", m.name), ("type", .string m.typeRef), ("optional", m.optional),
    ("array", m.array)]

/-- What the table holds for a declaration. -/
def entry (d : Declaration) : Json :=
  .object [("base", d.base), ("members", .list (d.members.map memberEntry))]

/-- The table of declarations by name. -/
def table (declarations : List Declaration) : Except ShapeError (List (Json × Json)) :=
  declarations.foldlM (fun known d => do return Json.insert (← d.name.asKey) (entry d) known) []

/-- The table as a value, its names as texts. -/
def tableValue (entries : List (Json × Json)) : Json :=
  .object (entries.map fun e => (e.1.keyText, e.2))

/-- The text of a document. -/
def text (header : List String) (entries : List (Json × Json)) : String :=
  let exports := "module.exports = " ++ String.ofList ((tableValue entries).write 0) ++ ";"
  joinLines (headerBlock header ++ [exports]) ++ "\n"

/-- The line that imports a namespace. -/
def importLine (alias_ path : String) (_ : Json) : String :=
  "var " ++ alias_ ++ " = require('" ++ path ++ "');"

end JavaScript

/-- JavaScript modules of type tables. -/
def Format.javaScript : Format where
  suffix := ".js"
  importLine := JavaScript.importLine
  compose d := do
    let entries ← JavaScript.table d.declarations
    return fun header => JavaScript.text header entries
  firstAsked := "declarations"

end SchemaArtifacts
