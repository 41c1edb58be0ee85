import SchemaArtifacts.Format.Basic

/-!
# TypeScript declarations

A document becomes a module of interfaces. Its imports come first; blank lines stand between blocks.

## Main definitions

* `TypeScript.primitive` — the type for a built-in type
* `TypeScript.typeText` — a type reference
* `TypeScript.memberLine`, `TypeScript.declarationLines` — a member and a declaration
* `TypeScript.lines`, `TypeScript.text` — a document
* `Format.typeScript` — the format

## Main results

* `TypeScript.typeText_local` — a type of the same namespace stands by its name alone
-/

namespace SchemaArtifacts

namespace TypeScript

/-- The types for the built-in types. -/
def primitives : List (String × String) :=
  [("string", "string"), ("boolean", "boolean"), ("number", "number"), ("integer", "number"),
    ("decimal", "number"), ("double", "number"), ("float", "number"), ("date", "Date"),
    ("dateTime", "Date"), ("any", "any")]

/-- The type for a built-in type; `any` for those without one of their own. -/
def primitive (name : String) : String := (primitives.lookup name).getD "any"

/-- A type reference. -/
def typeText (ref : String) : String :=
  match TypeRef.ofString ref with
  | ⟨none, name⟩ => name
  | ⟨some alias_, name⟩ =>
    if alias_ = Namespace.builtinAlias then primitive name else alias_ ++ "." ++ name

/-- A member. -/
def memberLine (m : Member) : String :=
  "\t" ++ m.name.display ++ (if m.optional.isTruthy then "?" else "") ++ ": " ++
    typeText m.typeRef ++ (if m.array.isTruthy then "[]" else "") ++ ";"

/-- The start of a declaration, up to its brace. -/
def head (d : Declaration) : String :=
  "export interface " ++ d.name.display ++
    (d.baseRef?.elim "" fun base => " extends " ++ typeText base)

/-- The lines of a declaration. -/
def declarationLines (d : Declaration) : List String :=
  if d.members.isEmpty then [head d ++ " {}"]
  else (head d ++ String.ofList [' ', '{']) :: d.members.map memberLine ++ [String.ofList ['}']]

/-- The lines of a document. -/
def lines (header : List String) (d : Document) : List String :=
  headerBlock header ++ d.declarations.flatMap fun decl => declarationLines decl ++ [""]

/-- A text without its trailing line feeds. -/
def dropTrailingBreaks (s : String) : String := String.ofList (Text.dropTrailing '\n' s.toList)

/-- The text of a document. -/
def text (header : List String) (d : Document) : String :=
  dropTrailingBreaks (joinLines (lines header d)) ++ "\n"

/-- The line that imports a namespace. -/
def importLine (alias_ path : String) (_ : Json) : String :=
  "import * as " ++ alias_ ++ " from '" ++ path ++ "';"

theorem typeText_local {ref : String} (h : ':' ∉ ref.toList) : typeText ref = ref := by
  unfold typeText TypeRef.ofString
  rw [Text.cut?_eq_none_iff.2 h]

end TypeScript

/-- TypeScript declaration modules. -/
def Format.typeScript : Format where
  suffix := ".d.ts"
  importLine := TypeScript.importLine
  compose d := .ok fun header => TypeScript.text header d

end SchemaArtifacts
