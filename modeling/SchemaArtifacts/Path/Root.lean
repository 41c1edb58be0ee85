import SchemaArtifacts.Text.Cut

/-!
# Absolute paths

An absolute path is kept as its parts. Empty and dot parts vanish when it is read, parent parts
stay. Exactly two leading slashes are kept as such, any other number reads as one.

## Main definitions

* `AbsolutePath` — the parts of an absolute path
* `AbsolutePath.ofString` — reading a path, relative ones from a given directory
* `AbsolutePath.join`, `AbsolutePath.toString` — extending and writing
-/

namespace SchemaArtifacts

/-- An absolute path. -/
structure AbsolutePath where
  /-- The path starts with two slashes. -/
  doubled : Bool := false
  parts : List String := []
  deriving Repr, DecidableEq

namespace AbsolutePath

/-- The top directory. -/
def top : AbsolutePath := {}

/-- The parts of a path text: empty and dot parts vanish. -/
def partsOf (s : List Char) : List String :=
  ((Text.pieces (· = '/') s).filter (· != ['.'])).map String.ofList

/-- Reads a path; one that does not start with a slash starts at `here`. -/
def ofString (here : AbsolutePath) (s : String) : AbsolutePath :=
  match s.toList with
  | '/' :: '/' :: '/' :: rest => { parts := partsOf rest }
  | '/' :: '/' :: rest => { doubled := true, parts := partsOf rest }
  | '/' :: rest => { parts := partsOf rest }
  | rest => { here with parts := here.parts ++ partsOf rest }

/-- The path extended by further parts. -/
def join (p : AbsolutePath) (parts : List String) : AbsolutePath :=
  { p with parts := p.parts ++ parts }

/-- The directory that holds the path's last part; the top directory holds itself. -/
def parent (p : AbsolutePath) : AbsolutePath := { p with parts := p.parts.dropLast }

/-- The last part, empty at the top. -/
def name (p : AbsolutePath) : String := p.parts.getLastD ""

/-- The written form. -/
protected def toString (p : AbsolutePath) : String :=
  (if p.doubled then "//" else "/") ++ "/".intercalate p.parts

instance : ToString AbsolutePath := ⟨AbsolutePath.toString⟩

@[simp] theorem parts_join (p : AbsolutePath) (parts : List String) :
    (p.join parts).parts = p.parts ++ parts := rfl

@[simp] theorem join_nil (p : AbsolutePath) : p.join [] = p := by
  simp [join]

theorem join_append (p : AbsolutePath) (parts more : List String) :
    p.join (parts ++ more) = (p.join parts).join more := by
  simp [join]

end AbsolutePath

end SchemaArtifacts
