import SchemaArtifacts.Export.Shelf
import SchemaArtifacts.Format.Basic
import SchemaArtifacts.Path.Lexical

/-!
# Exporters

An exporter brings one document in one format to a shelf. It finds out once in which directory its
own artifact lies, and names the artifacts it imports from there.

## Main definitions

* `Exporter` — a document, if there is one, a format, and what was found out
* `Export` — operations of an exporter on a shelf
* `Exporter.homeDirectory` — the directory of the exporter's own artifact
* `Exporter.pathTo` — how another artifact is named from there
* `Exporter.header`, `Exporter.contents` — the import lines and the whole text
* `ExportStatus` — how an export ends, with `ExportStatus.label`
* `Exporter.start`, `Exporter.finish` — an export before and after the shelf is asked for the
  artifact
* `Exporter.prepare` — the artifact is stored unless it is there
* `Shelf.exportOne` — a document is exported by a fresh exporter

## Main results

* `Exporter.prepare_noDocument` — without a document nothing is done
-/

namespace SchemaArtifacts

/-- What exports one document. -/
structure Exporter where
  /-- The document; none if its name stands for no document. -/
  doc : Option Document
  format : Format
  /-- The directory of the exporter's own artifact, once it is known. -/
  home : Option String := none
  /-- How many texts were written. -/
  renders : Nat := 0

/-- Operations of an exporter on a shelf with state `σ`. -/
abbrev Export (σ : Type) := Act (σ × Exporter)

/-- How an export ends. -/
inductive ExportStatus where
  | noDocument
  | cached
  | skipped
  | written
  deriving Repr, DecidableEq

/-- The word for the end of an export. -/
def ExportStatus.label : ExportStatus → String
  | .noDocument => "no_document"
  | .cached => "cached"
  | .skipped => "skipped"
  | .written => "written"

/-- The end of an export that a word stands for. -/
def ExportStatus.ofLabel? (label : String) : Option ExportStatus :=
  [noDocument, cached, skipped, written].find? fun status => status.label == label

@[simp] theorem ExportStatus.ofLabel?_label (status : ExportStatus) :
    ofLabel? status.label = some status := by
  cases status <;> decide

namespace Exporter

variable {σ α : Type}

/-- An operation of the shelf alone. -/
def onShelf (act : Act σ α) : Export σ α := act.onPart Prod.fst fun s whole => (s, whole.2)

/-- Something that can only fail for the shape of a value. -/
def shaped (a : Except ShapeError α) : Export σ α := Act.ofExcept .shape a

/-- The exporter itself. -/
def self : Export σ Exporter := do return (← get).2

/-- The document, which is asked for `property`. -/
def document (property : String) : Export σ Document := do
  match (← self).doc with
  | some d => return d
  | none => throw (.noDocument property)

/-- The directory of the exporter's own artifact. It is looked up on the shelf once. -/
def homeDirectory (shelf : Shelf σ) : Export σ String := do
  match (← self).home with
  | some dir => return dir
  | none =>
    let path ← onShelf (shelf.locate (← document "namespace").name)
    let dir := String.ofList (Path.dirname path.toList)
    modify fun (s, e) => (s, { e with home := some dir })
    return dir

/-- How the artifact of a name is named from the exporter's own artifact. -/
def pathTo (shelf : Shelf σ) (name : Json) : Export σ String := do
  let target ← onShelf (shelf.locate name)
  let dir ← homeDirectory shelf
  return String.ofList (Path.moduleSpecifier target.toList dir.toList)

/-- One line for each import that leads to another document. -/
def header (shelf : Shelf σ) : Export σ (List String) := do
  let d ← document "namespace"
  let line := (← self).format.importLine
  d.foreignImports.mapM fun (alias_, full) => do return line alias_ (← pathTo shelf full) full

/-- The text of the artifact. -/
def contents (shelf : Shelf σ) : Export σ String := do
  modify fun (s, e) => (s, { e with renders := e.renders + 1 })
  let format := (← self).format
  let text ← shaped (format.compose (← document format.firstAsked))
  return text (← header shelf)

/-- The name of the artifact. -/
def outName : Export σ String := do
  let d ← document "namespace"
  shaped ((← self).format.outName d.name)

/-- The start of an export: the name of the artifact, if there is a document. The directory of the
artifact is found out with it, before anything else is asked of the shelf. -/
def start (shelf : Shelf σ) : Export σ (Option String) := do
  if (← self).doc.isNone then return none
  let out ← outName
  discard (homeDirectory shelf)
  return some out

/-- The end of an export, once the shelf has said whether the artifact is there. -/
def finish (shelf : Shelf σ) (out : String) : (present : Option Bool) → Export σ ExportStatus
  | none => return .skipped
  | some true => return .cached
  | some false => do
    let text ← contents shelf
    onShelf (shelf.store (.ofOutput out) text)
    return .written

/-- Stores the artifact unless it is there. -/
def prepare (shelf : Shelf σ) : Export σ ExportStatus := do
  match ← start shelf with
  | none => return .noDocument
  | some out => finish shelf out (← onShelf (shelf.isCached out))

theorem prepare_noDocument (shelf : Shelf σ) (s : σ) (e : Exporter) (h : e.doc = none) :
    (prepare shelf).run (s, e) = (.ok .noDocument, (s, e)) := by
  simp [prepare, start, self, Act.run_bind, Act.run_get, Act.run_pure, h]

end Exporter

/-- A document, if there is one, is exported by a fresh exporter. -/
def Shelf.exportOne {σ : Type} (shelf : Shelf σ) (format : Format) (doc : Option Document) :
    Act σ ExportStatus :=
  ExceptT.mk fun s =>
    let (result, s, _) := (Exporter.prepare shelf).run (s, { doc, format })
    (result, s)

end SchemaArtifacts
