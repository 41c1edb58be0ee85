import SchemaArtifacts.Command.Usage

/-!
# The names of the package

The package is asked for what it offers by name. Some names stand for texts; the others stand for its
main parts, which are loaded only then.

## Main definitions

* `Package.Part` — the parts, with `Package.Part.word` and `Package.Part.path`
* `Package.texts` — the texts
* `Package.find` — what a name stands for

## Main results

* `Package.find_word` — the word for a part stands for it
* `Package.find_eq_error_iff` — which names are refused
-/

namespace SchemaArtifacts.Package

/-- The name of the package. -/
def title : String := "schema_export"

/-- What the package says about itself. -/
def description : String :=
  "\nSchema Export - Export stage of a schema-to-source code generator.\n\n" ++
    "Renders resolved schema namespaces into TypeScript or JavaScript sources and\n" ++
    "writes each one to a content cache exactly once, with generated files\n" ++
    "importing each other through relative paths.\n"

/-- The parts that are loaded when they are asked for. -/
inductive Part where
  | runner
  | cache
  | model
  deriving Repr, DecidableEq

/-- The word for a part. -/
def Part.word : Part → String
  | .runner => "ExportRunner"
  | .cache => "FileSystemCache"
  | .model => "SchemaModel"

/-- Where a part is. -/
def Part.path (part : Part) : String :=
  let place := match part with
    | .runner => ".core.runner."
    | .cache => ".cache.filesystem."
    | .model => ".models.schema."
  title ++ place ++ part.word

/-- The part that a word stands for. -/
def Part.ofWord? (word : String) : Option Part :=
  [runner, cache, model].find? fun part => part.word == word

/-- The texts about the package. -/
def texts : List (String × String) :=
  [("__version__", Command.version), ("__name__", title), ("__package__", title),
    ("__doc__", description)]

/-- The text of a refusal. -/
def refusal (word : String) : String :=
  "module " ++ Text.quoted title ++ " has no attribute " ++ Text.quoted word

/-- What a name stands for: a text, or where a part is. -/
def find (word : String) : Except String String :=
  match texts.lookup word with
  | some text => .ok text
  | none =>
    match Part.ofWord? word with
    | some part => .ok part.path
    | none => .error (refusal word)

theorem find_word (part : Part) : find part.word = .ok part.path := by
  cases part <;> rfl

/-- A name is refused if it is neither that of a text nor the word for a part. -/
theorem find_eq_error_iff {word : String} :
    find word = .error (refusal word) ↔
      word ∉ texts.map Prod.fst ∧ ∀ part : Part, part.word ≠ word := by
  have hpart : Part.ofWord? word = none ↔ ∀ part : Part, part.word ≠ word := by
    rw [Part.ofWord?, List.find?_eq_none]
    constructor
    · intro h part heq
      refine h part ?_ (beq_iff_eq.2 heq)
      cases part <;> simp
    · exact fun h part _ heq => h part (beq_iff_eq.1 heq)
  have htext : texts.lookup word = none ↔ word ∉ texts.map Prod.fst := by
    simp only [List.lookup_eq_none_iff, List.mem_map, not_exists, not_and, bne_iff_ne]
    exact forall₂_congr fun entry _ => ne_comm
  rw [← htext, ← hpart, find]
  cases texts.lookup word with
  | some text => simp
  | none => cases Part.ofWord? word <;> simp

end SchemaArtifacts.Package
