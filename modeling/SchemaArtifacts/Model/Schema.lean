import SchemaArtifacts.Json.Order
import SchemaArtifacts.Model.Namespace

/-!
# Schemas

A schema is a table of documents by name. Each document is a namespace with its declarations.

## Main definitions

* `Member`, `Declaration`, `Document`, `Schema` — the parts of a schema
* `Schema.add`, `Schema.document?` — the table of documents
* `Schema.inNameOrder` — all documents in ascending order of their names
* `Schema.reachable` — the documents that some names lead to, breadth first
* `Schema.collect` — the documents to export

## Main results

* `Document.declarations_markAll` — marking the references of the declarations leaves them as they
  are
-/

namespace SchemaArtifacts

/-- A member of a declaration. -/
structure Member where
  name : Json
  typeRef : String
  optional : Json := .bool false
  array : Json := .bool false

/-- A declaration of a type. -/
structure Declaration where
  name : Json
  /-- The type it extends; any false value stands for none. -/
  base : Json := .null
  members : List Member := []

/-- The reference to the type that a declaration extends. -/
def Declaration.baseRef? (d : Declaration) : Option String :=
  match d.base with
  | .string s => if s.isEmpty then none else some s
  | _ => none

/-- The type references of a declaration, its base first. -/
def Declaration.typeRefs (d : Declaration) : List String :=
  d.baseRef?.toList ++ d.members.map Member.typeRef

/-- A namespace with its declarations. -/
structure Document extends Namespace where
  declarations : List Declaration := []

/-- Marks the alias of each type reference of the declarations. -/
def Document.markAll (d : Document) : Document :=
  { d with
    toNamespace := (d.declarations.flatMap Declaration.typeRefs).foldl Namespace.markRef
      d.toNamespace }

@[simp] theorem Document.declarations_markAll (d : Document) :
    d.markAll.declarations = d.declarations := rfl

/-- The documents of a schema by name. -/
structure Schema where
  documents : List (Json × Document) := []

namespace Schema

/-- Adds a document. One of the same name is replaced and keeps its place. -/
def add (s : Schema) (d : Document) : Except ShapeError Schema := do
  let name ← d.name.asKey
  return { documents := Json.insert name d s.documents }

/-- The document of a name. -/
def document? (s : Schema) (name : Json) : Except ShapeError (Option Document) := do
  return Json.find? (← name.asKey) s.documents

/-- All documents in ascending order of their names. -/
def inNameOrder (s : Schema) : Except ShapeError (List Document) := do
  return (← Json.sortOn Prod.fst s.documents).map Prod.snd

/-- A name is among the names already seen. -/
def isSeen (seen : List Json) (name : Json) : Bool := seen.any fun other => other.sameKey name

/-- Visits names first come, first served. Each name counts once; the names that a document links
to are put at the end. `bound` is at least the number of visits to come. -/
def visit (s : Schema) :
    (bound : Nat) → (seen queue : List Json) → Except ShapeError (List Document)
  | 0, _, _ => .ok []
  | _, _, [] => .ok []
  | bound + 1, seen, name :: queue => do
    let name ← name.asKey
    if isSeen seen name then visit s bound seen queue
    else
      match Json.find? name s.documents with
      | none => visit s bound (name :: seen) queue
      | some d => return d :: (← visit s bound (name :: seen) (queue ++ d.links))

/-- The documents that `roots` lead to, breadth first. No document is expanded twice, so there are
no more visits than roots and links. -/
def reachable (s : Schema) (roots : List Json) : Except ShapeError (List Document) :=
  let links := s.documents.map fun entry => entry.2.links.length
  visit s (links.foldl (· + ·) roots.length) [] roots

/-- The documents to export: those that the roots lead to, or all in name order without roots. -/
def collect (s : Schema) (roots : Json) : Except ShapeError (List Document) :=
  if roots.isTruthy then do reachable s (← roots.elements) else inNameOrder s

end Schema

end SchemaArtifacts
