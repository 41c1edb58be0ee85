import SchemaArtifacts.Export.Shelf

/-!
# Rehearsals

A shelf in memory that keeps an account of what it is asked for. Its paths come from a table, and
what it can hold, holds already, or fails to store is set beforehand.

## Main definitions

* `Rehearsal` — the table, the settings and the account
* `Rehearsal.shelf` — the shelf
-/

namespace SchemaArtifacts

/-- A shelf in memory. -/
structure Rehearsal where
  /-- The path of each name. -/
  paths : List (Json × String) := []
  /-- The artifacts that are there. -/
  cached : List String := []
  /-- The artifacts that the shelf cannot hold. -/
  unsupported : List String := []
  /-- What storing fails with. -/
  fault : Option Incident := none
  /-- What was stored. -/
  writes : List (Address × String) := []
  /-- The names whose paths were asked for. -/
  calls : List Json := []

namespace Rehearsal

/-- The name under which a stored artifact is found. -/
def entryName (a : Address) : String := String.ofList (a.url.toList.dropWhile (· = '/'))

/-- The path of a name, which must be in the table. -/
def locate (name : Json) : Act Rehearsal String := do
  modify fun r => { r with calls := r.calls ++ [name] }
  let key ← Act.ofExcept .shape name.asKey
  match Json.find? key (← get).paths with
  | some path => return path
  | none => throw (.shape (.missingKey name))

/-- Whether an artifact is there. -/
def isCached (outName : String) : Act Rehearsal (Option Bool) := do
  let r ← get
  return if r.unsupported.contains outName then none else some (r.cached.contains outName)

/-- Stores a text, unless storing fails. -/
def store (a : Address) (content : String) : Act Rehearsal Unit := do
  match (← get).fault with
  | some fault => throw (.incident fault)
  | none =>
    modify fun r =>
      { r with writes := r.writes ++ [(a, content)], cached := r.cached ++ [entryName a] }

/-- The shelf. -/
def shelf : Shelf Rehearsal where
  locate := locate
  isCached := isCached
  store := store

end Rehearsal

end SchemaArtifacts
