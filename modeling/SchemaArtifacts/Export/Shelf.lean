import SchemaArtifacts.Address
import SchemaArtifacts.Act

/-!
# Shelves

A shelf keeps artifacts. It knows the path of each name it can hold, can tell whether an artifact is
there already, and stores texts.

## Main definitions

* `Shelf` — the three things a shelf can do, as operations on its state
-/

namespace SchemaArtifacts

/-- What keeps artifacts; `σ` is its state. -/
structure Shelf (σ : Type) where
  /-- The path of a name. -/
  locate : (name : Json) → Act σ String
  /-- Whether an artifact is there; nothing when the shelf cannot hold its name. -/
  isCached : (outName : String) → Act σ (Option Bool)
  /-- Stores a text. -/
  store : Address → (content : String) → Act σ Unit

end SchemaArtifacts
