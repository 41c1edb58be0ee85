import SchemaArtifacts.Model.Schema

/-!
# Schemas from descriptions

A description is an object whose `namespaces` are objects with a `name`, `imports` and
`declarations`; these have a `name`, a `base` and `members`, and these a `name`, a `type` and two
flags. Everything but the names and types may be left out.

## Main definitions

* `RawMember`, `RawDeclaration` — parts whose type references have not been checked
* `RawDeclaration.check` — a declaration whose type references are all texts
* `Document.ofJson` — a namespace with its declarations
* `Schema.ofJson` — a whole description
-/

namespace SchemaArtifacts

/-- A member whose type reference has not been checked. -/
structure RawMember where
  name : Json
  typeRef : Json
  optional : Json
  array : Json

/-- A member from its description. -/
def RawMember.ofJson (a : Json) : Except ShapeError RawMember := do
  let name ← a.lookup "name"
  let typeRef ← a.lookup "type"
  let optional ← a.fieldOr "optional" (.bool false)
  let array ← a.fieldOr "array" (.bool false)
  return { name, typeRef, optional, array }

/-- A declaration whose type references have not been checked. -/
structure RawDeclaration where
  name : Json
  base : Json
  members : List RawMember

/-- A declaration from its description. -/
def RawDeclaration.ofJson (a : Json) : Except ShapeError RawDeclaration := do
  let name ← a.lookup "name"
  let base ← a.fieldOr "base" .null
  let members ← (← (← a.fieldOr "members" (.list [])).elements).mapM RawMember.ofJson
  return { name, base, members }

/-- A type reference must be a text. -/
def asTypeRef (a : Json) : Except ShapeError String := a.asName "partition"

/-- The member, if its type reference is a text. -/
def RawMember.check (m : RawMember) : Except ShapeError Member := do
  let typeRef ← asTypeRef m.typeRef
  return { name := m.name, typeRef, optional := m.optional, array := m.array }

/-- The declaration, if all its type references are texts. -/
def RawDeclaration.check (d : RawDeclaration) : Except ShapeError Declaration := do
  if d.base.isTruthy then discard (asTypeRef d.base)
  return { name := d.name, base := d.base, members := (← d.members.mapM RawMember.check) }

/-- A document from its description, with the aliases marked that its declarations refer to. -/
def Document.ofJson (a : Json) : Except ShapeError Document := do
  let name ← a.lookup "name"
  let imports ← (← a.fieldOr "imports" (.object [])).pairs
  let raw ← (← (← a.fieldOr "declarations" (.list [])).elements).mapM RawDeclaration.ofJson
  let declarations ← raw.mapM RawDeclaration.check
  return Document.markAll { name, imports, declarations }

/-- A schema from its description. -/
def Schema.ofJson (a : Json) : Except ShapeError Schema := do
  let parts ← (← a.fieldOr "namespaces" (.list [])).elements
  parts.foldlM (fun s part => do s.add (← Document.ofJson part)) {}

end SchemaArtifacts
