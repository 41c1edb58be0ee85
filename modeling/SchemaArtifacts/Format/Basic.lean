import SchemaArtifacts.Failure
import SchemaArtifacts.Model.Schema

/-!
# Formats

A format says how an artifact is named after its namespace, how one import is written, and how the
whole text is put together.

## Main definitions

* `Format` — a suffix, an import line and a text
* `Format.outName` — the name of the artifact of a namespace
* `joinLines` — lines with a line feed between them
-/

namespace SchemaArtifacts

/-- How artifacts are written. -/
structure Format where
  /-- What is put behind the name of a namespace. -/
  suffix : String
  /-- The line that imports a namespace: its alias, the path to its artifact, and its name. -/
  importLine : (alias_ path : String) → (full : Json) → String
  /-- The text of a document, once its import lines are known. -/
  compose : Document → Except ShapeError (List String → String)
  /-- What a document is asked for first when its text is put together. -/
  firstAsked : String := "namespace"

/-- The name of the artifact of a namespace. -/
def Format.outName (f : Format) (name : Json) : Except ShapeError String := name.concat f.suffix

/-- Lines with a line feed between them. -/
def joinLines (lines : List String) : String := "\n".intercalate lines

/-- The import lines, with an empty line after them if there are any. -/
def headerBlock (header : List String) : List String :=
  if header.isEmpty then [] else header ++ [""]

end SchemaArtifacts
