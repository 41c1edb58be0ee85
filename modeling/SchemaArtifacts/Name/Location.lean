import SchemaArtifacts.Name.Segments
import SchemaArtifacts.Path.Root

/-!
# The place of a name in a cache

## Main definitions

* `Name.locate` — the path of a name below a root

## Main results

* `Name.exists_segments_of_locate` — a located name lies below the root by its segments
-/

namespace SchemaArtifacts.Name

/-- The path of a name below a root: the root extended by the name's segments. -/
def locate (root : AbsolutePath) (name : String) : Except NameError AbsolutePath :=
  (segments name).map fun ss => root.join (ss.map String.ofList)

theorem exists_segments_of_locate {root p : AbsolutePath} {name : String}
    (h : locate root name = .ok p) :
    ∃ ss, segments name = .ok ss ∧ p = root.join (ss.map String.ofList) := by
  unfold locate at h
  cases hs : segments name with
  | error e => rw [hs] at h; cases h
  | ok ss => rw [hs] at h; cases h; exact ⟨ss, rfl, rfl⟩

end SchemaArtifacts.Name
