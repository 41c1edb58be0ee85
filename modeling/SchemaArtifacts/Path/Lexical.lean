import SchemaArtifacts.Text.Cut

/-!
# Lexical paths

Paths as texts, compared and joined without looking at a disk. A relative path is read from the top
directory.

## Main definitions

* `Path.normal` — the components of a path once dot parts are resolved
* `Path.relative` — the way from a directory to a target
* `Path.dirname` — the text before the last slash
* `Path.moduleSpecifier` — the relative path of a module, always visibly relative
-/

namespace SchemaArtifacts.Path

/-- One step along a path: an empty or dot part stays, a parent part goes up and stops at the
top. -/
def enter (at_ : List (List Char)) (part : List Char) : List (List Char) :=
  if part.isEmpty || part = ['.'] then at_
  else if part = ['.', '.'] then at_.dropLast
  else at_ ++ [part]

/-- The components of a path read from the top directory, with dot parts resolved. -/
def normal (path : List Char) : List (List Char) :=
  (path.splitOn '/').foldl enter []

/-- The length of the common start of two paths. -/
def sharedLength : (a b : List (List Char)) → Nat
  | x :: a, y :: b => if x = y then sharedLength a b + 1 else 0
  | _, _ => 0

/-- The components of the way from `start` to `target`: up out of what they do not share, then
down. -/
def relativeParts (target start : List (List Char)) : List (List Char) :=
  let shared := sharedLength start target
  List.replicate (start.length - shared) ['.', '.'] ++ target.drop shared

/-- The way from one path to another, `.` when they are the same. -/
def relative (target start : List Char) : List Char :=
  match relativeParts (normal target) (normal start) with
  | [] => ['.']
  | parts => ['/'].intercalate parts

/-- What stands before the last slash, without trailing slashes of its own unless it is all
slashes. -/
def dirname (path : List Char) : List Char :=
  match Text.cutLast? '/' path with
  | none => []
  | some (head, _) =>
    if head.all (· = '/') then head ++ ['/'] else Text.dropTrailing '/' head

/-- The suffix that a target carries while its way is computed, so that a target which is an
ancestor directory is still reached by its name. -/
def marker : List Char := ['.', 'j', 's']

/-- A text without a final `marker`. -/
def dropMarker (s : List Char) : List Char :=
  if marker.isSuffixOf s then s.take (s.length - marker.length) else s

/-- A path that starts with a dot or a slash as it is, any other from the current directory. -/
def visiblyRelative (s : List Char) : List Char :=
  if s.head? = some '.' || s.head? = some '/' then s else '.' :: '/' :: s

/-- How a module in directory `dir` names the module at `target`. -/
def moduleSpecifier (target dir : List Char) : List Char :=
  visiblyRelative (dropMarker (relative (target ++ marker) dir))

end SchemaArtifacts.Path
