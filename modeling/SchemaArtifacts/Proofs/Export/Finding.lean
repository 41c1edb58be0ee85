import SchemaArtifacts.Cache.Store
import SchemaArtifacts.Proofs.Export.Steady

/-!
# What an exporter finds out on a cache

What an exporter asks of a cache before it stores its text depends on the root of the cache alone,
and asking leaves the cache as it is. So each question has an answer that can be told without an
exporter: it is the same however much the exporter has found out before.

## Main definitions

* `Document.startBelow` — the name of the artifact, once the document is known to have a directory
* `Document.specifierBelow`, `Document.headerBelow`, `Document.textBelow` — how a document names
  another, its import lines and its text
* `placeBelow` — the path of a name below a root, as a text
* `Export.Reads` — operations that leave the shelf as it is
* `Exporter.StandsFor` — what the exporter of a document has found out is right

## Main results

* `Exporter.reads_start`, `Exporter.reads_contents` — only storing changes a cache
* `Exporter.run_start`, `Exporter.run_contents` — what the exporter of a document finds out
-/

namespace SchemaArtifacts

variable {σ α β : Type}

/-- The path of a value that is a name. -/
def Json.locateBelow (root : AbsolutePath) (name : Json) : Except Failure AbsolutePath := do
  let n ← (Cache.nameOf name).mapError .shape
  (Name.locate root n).mapError .name

theorem Json.locateBelow_string (root : AbsolutePath) (name : String) :
    (Json.string name).locateBelow root = (Name.locate root name).mapError .name := rfl

namespace Document

/-- The directory of the artifact of a document. -/
def homeBelow (root : AbsolutePath) (d : Document) : Except Failure String :=
  (d.name.locateBelow root).map fun p => String.ofList (Path.dirname p.toString.toList)

/-- How a document names the artifact of another. -/
def specifierBelow (root : AbsolutePath) (d : Document) (name : Json) : Except Failure String := do
  let target ← name.locateBelow root
  let dir ← d.homeBelow root
  return String.ofList (Path.moduleSpecifier target.toString.toList dir.toList)

/-- The import lines of a document. -/
def headerBelow (root : AbsolutePath) (format : Format) (d : Document) :
    Except Failure (List String) :=
  d.foreignImports.mapM fun (alias_, full) => do
    return format.importLine alias_ (← d.specifierBelow root full) full

/-- The text of the artifact of a document. -/
def textBelow (root : AbsolutePath) (format : Format) (d : Document) : Except Failure String := do
  let text ← (format.compose d).mapError .shape
  return text (← d.headerBelow root format)

end Document

/-- A document has a text if its format has one for it and its imports have lines. -/
theorem Document.textBelow_eq_ok_iff {root : AbsolutePath} {format : Format} {d : Document}
    {content : String} : d.textBelow root format = .ok content ↔ ∃ text lines,
      format.compose d = .ok text ∧ d.headerBelow root format = .ok lines ∧ text lines = content := by
  simp only [textBelow, Result.bind_eq_ok, Result.mapError_eq_ok, pure, Except.pure,
    Except.ok.injEq, exists_and_left]

/-- The name of the artifact of a document, provided that the document has a directory. -/
def Document.startBelow (root : AbsolutePath) (format : Format) (d : Document) :
    Except Failure String := do
  let out ← (format.outName d.name).mapError .shape
  let _ ← d.homeBelow root
  return out

/-- Only a text makes a name of an artifact, with the suffix of the format after it. -/
theorem Format.outName_eq_ok_iff {format : Format} {name : Json} {out : String} :
    format.outName name = .ok out ↔ ∃ text, name = .string text ∧ text ++ format.suffix = out := by
  constructor
  · intro h
    cases name with
    | string text => exact ⟨text, rfl, Except.ok.inj h⟩
    | list items => cases h
    | _ => cases h
  · rintro ⟨text, rfl, rfl⟩
    rfl

/-- A document has a directory where its bare name has a path. -/
theorem Document.startBelow_eq_ok_iff {root : AbsolutePath} {format : Format} {d : Document}
    {out : String} : d.startBelow root format = .ok out ↔
      format.outName d.name = .ok out ∧ ∃ path, d.name.locateBelow root = .ok path := by
  simp only [startBelow, homeBelow, Result.bind_eq_ok, Result.mapError_eq_ok, Result.map_eq_ok,
    pure, Except.pure, Except.ok.injEq]
  constructor
  · rintro ⟨_, hout, _, ⟨path, hpath, -⟩, rfl⟩
    exact ⟨hout, path, hpath⟩
  · rintro ⟨hout, path, hpath⟩
    exact ⟨out, hout, _, ⟨path, hpath, rfl⟩, rfl⟩

/-- An operation of an exporter that leaves the shelf as it is. -/
def Export.Reads (act : Export σ α) : Prop := ∀ s e, (act.run (s, e)).2.1 = s

namespace Export

theorem reads_pure (a : α) : Reads (pure a : Export σ α) := fun _ _ => rfl

theorem reads_throw (e : Failure) : Reads (throw e : Export σ α) := fun _ _ => rfl

theorem reads_bind {act : Export σ α} {next : α → Export σ β} (h : act.Reads)
    (hn : ∀ a, (next a).Reads) : Reads (act >>= next) := by
  intro s e
  rw [Act.run_bind]
  have hs := h s e
  rcases hrun : act.run (s, e) with ⟨result, s', e'⟩
  rw [hrun] at hs
  obtain rfl : s' = s := hs
  cases result with
  | ok a => exact hn a s' e'
  | error _ => rfl

theorem reads_map {act : Export σ α} (f : α → β) (h : act.Reads) : Reads (f <$> act) := by
  intro s e
  rw [Act.run_map]
  exact h s e

theorem reads_mapM {f : α → Export σ β} (h : ∀ a, (f a).Reads) (as : List α) :
    Reads (as.mapM f) := by
  induction as with
  | nil => exact reads_pure _
  | cons a as ih =>
    rw [List.mapM_cons]
    exact reads_bind (h a) fun _ => reads_bind ih fun _ => reads_pure _

end Export

namespace Exporter
open Export

theorem reads_self : Reads (self : Export σ Exporter) := fun _ _ => rfl

theorem reads_shaped (a : Except ShapeError α) : Reads (shaped a : Export σ α) := by
  intro s e
  cases a <;> rfl

theorem reads_onShelf {act : Act σ α} (h : ∀ s, (act.run s).2 = s) : Reads (onShelf act) :=
  fun s _ => h s

theorem reads_document (property : String) : Reads (document property : Export σ Document) := by
  unfold document
  refine reads_bind reads_self fun e => ?_
  cases e.doc with
  | some d => exact reads_pure d
  | none => exact reads_throw _

theorem run_locate (c : Cache) (name : Json) :
    (Cache.shelf.locate name).run c =
      ((name.locateBelow c.root).map AbsolutePath.toString, c) := by
  simp only [Cache.shelf, Act.run_bind, Act.run_get, Json.locateBelow]
  cases Cache.nameOf name with
  | error e => rfl
  | ok n =>
    simp only [Act.run_ofExcept_ok, Cache.locate]
    change _ = (((Name.locate c.root n).mapError Failure.name).map AbsolutePath.toString, c)
    cases Name.locate c.root n <;> rfl

theorem reads_homeDirectory : Reads (homeDirectory Cache.shelf) := by
  unfold homeDirectory
  refine reads_bind reads_self fun e => ?_
  cases e.home with
  | some dir => exact reads_pure dir
  | none =>
    refine reads_bind (reads_document _) fun d => ?_
    refine reads_bind (reads_onShelf fun c => by rw [run_locate]) fun path => ?_
    exact reads_bind (fun _ _ => rfl) fun _ => reads_pure _

theorem reads_pathTo (name : Json) : Reads (pathTo Cache.shelf name) := by
  unfold pathTo
  refine reads_bind (reads_onShelf fun c => by rw [run_locate]) fun target => ?_
  exact reads_bind reads_homeDirectory fun dir => reads_pure _

theorem reads_header : Reads (header Cache.shelf) := by
  unfold header
  refine reads_bind (reads_document _) fun d => ?_
  refine reads_bind reads_self fun e => ?_
  exact reads_mapM (fun entry => reads_bind (reads_pathTo _) fun path => reads_pure _) _

/-- Putting a text together leaves the cache as it is. -/
theorem reads_contents : Reads (contents Cache.shelf) := by
  unfold contents
  refine reads_bind (fun _ _ => rfl) fun _ => ?_
  refine reads_bind reads_self fun e => ?_
  refine reads_bind (reads_document _) fun d => ?_
  refine reads_bind (reads_shaped _) fun text => ?_
  exact reads_bind reads_header fun lines => reads_pure _

/-- The start of an export leaves the cache as it is. -/
theorem reads_start : Reads (start Cache.shelf) := by
  unfold start
  refine reads_bind reads_self fun e => ?_
  split
  · exact reads_pure none
  · refine reads_bind ?_ fun out => ?_
    · unfold outName
      refine reads_bind (reads_document _) fun d => ?_
      exact reads_bind reads_self fun e => reads_shaped _
    · exact reads_bind (reads_map _ reads_homeDirectory) fun _ => reads_pure _

end Exporter

/-! ## On a cache -/

/-- The path of a value below a root, as a text. -/
def placeBelow (root : AbsolutePath) (name : Json) : Except Failure String :=
  (name.locateBelow root).map AbsolutePath.toString

namespace Document

variable (root : AbsolutePath) (format : Format) (d : Document)

theorem homeBy_placeBelow : d.homeBy (placeBelow root) = d.homeBelow root := by
  unfold homeBy homeBelow placeBelow
  cases d.name.locateBelow root <;> rfl

theorem specifierBy_placeBelow (name : Json) :
    d.specifierBy (placeBelow root) name = d.specifierBelow root name := by
  unfold specifierBy specifierBelow
  rw [homeBy_placeBelow, placeBelow]
  cases name.locateBelow root <;> rfl

theorem headerBy_placeBelow : d.headerBy (placeBelow root) format = d.headerBelow root format := by
  unfold headerBy headerBelow
  simp only [specifierBy_placeBelow]

theorem textBy_placeBelow : d.textBy (placeBelow root) format = d.textBelow root format := by
  unfold textBy textBelow
  rw [headerBy_placeBelow]

end Document

namespace Exporter

/-- An exporter stands for a document: what it has found out about the document's directory is
right. -/
structure StandsFor (e : Exporter) (root : AbsolutePath) (d : Document) : Prop where
  doc : e.doc = some d
  home : ∀ dir, e.home = some dir → d.homeBelow root = .ok dir

variable {e : Exporter} {c : Cache} {d : Document}

theorem knows_iff : e.Knows (placeBelow c.root) d ↔ e.StandsFor c.root d := by
  constructor
  · exact fun h => ⟨h.doc, fun dir hdir => by rw [← d.homeBy_placeBelow, h.home dir hdir]⟩
  · exact fun h => ⟨h.doc, fun dir hdir => by rw [d.homeBy_placeBelow, h.home dir hdir]⟩

/-- A cache is a steady shelf, and asking for a path leaves it as it is. -/
theorem isSteady_shelf (c : Cache) : Cache.shelf.IsSteady (· = c) (placeBelow c.root) := by
  refine ⟨?_, ?_⟩
  · rintro name _ rfl
    rw [run_locate, placeBelow]
  · rintro name _ rfl
    rw [run_locate]

/-- On a cache, every exporter that stands for a document gets `answer` from `act`, and finds out
at most the document's directory. -/
def Finds (c : Cache) (d : Document) {α : Type} (act : Export Cache α) (answer : Except Failure α) :
    Prop :=
  ∀ e : Exporter, e.StandsFor c.root d →
    ∃ e', act.run (c, e) = (answer, (c, e')) ∧ e'.StandsFor c.root d ∧ SameButHome e e'

theorem Settles.finds {act : Export Cache α} {answer : Except Failure α}
    (h : Settles (· = c) (placeBelow c.root) d act answer) : Finds c d act answer := by
  intro e he
  obtain ⟨_, e', hrun, rfl, he', hsame⟩ := h c e rfl (knows_iff.2 he)
  exact ⟨e', hrun, knows_iff.1 he', hsame⟩

theorem finds_homeDirectory : Finds c d (homeDirectory Cache.shelf) (d.homeBelow c.root) := by
  rw [← d.homeBy_placeBelow]
  exact (settles_homeDirectory (isSteady_shelf c)).finds

theorem finds_pathTo (name : Json) :
    Finds c d (pathTo Cache.shelf name) (d.specifierBelow c.root name) := by
  rw [← d.specifierBy_placeBelow]
  exact (settles_pathTo (isSteady_shelf c) name).finds

theorem run_start (h : e.StandsFor c.root d) :
    ∃ e', (start Cache.shelf).run (c, e) = ((d.startBelow c.root e.format).map some, (c, e')) ∧
      e'.StandsFor c.root d ∧ SameButHome e e' := by
  simp only [start, outName, self, Act.run_bind, Act.run_get, Act.run_pure, h.doc,
    Option.isNone_some, Bool.false_eq_true, ↓reduceIte, run_document_of_doc h.doc]
  unfold Document.startBelow
  cases e.format.outName d.name with
  | error err => exact ⟨e, rfl, h, .refl e⟩
  | ok out =>
    obtain ⟨e', hrun, hfor, hsame⟩ := finds_homeDirectory (c := c) e h
    refine ⟨e', ?_, hfor, hsame⟩
    simp only [shaped, Act.run_ofExcept_ok, Act.run_discard, hrun]
    cases d.homeBelow c.root <;> rfl

theorem run_header (h : e.StandsFor c.root d) :
    ∃ e', (header Cache.shelf).run (c, e) = (d.headerBelow c.root e.format, (c, e')) ∧
      e'.StandsFor c.root d ∧ SameButHome e e' := by
  obtain ⟨_, e', hrun, rfl, he', hsame⟩ := run_header_steady (isSteady_shelf c) rfl (knows_iff.2 h)
  rw [d.headerBy_placeBelow] at hrun
  exact ⟨e', hrun, knows_iff.1 he', hsame⟩

theorem run_contents (h : e.StandsFor c.root d) :
    ∃ e', (contents Cache.shelf).run (c, e) = (d.textBelow c.root e.format, (c, e')) ∧
      e'.StandsFor c.root d ∧ SameButHome { e with renders := e.renders + 1 } e' := by
  obtain ⟨_, e', hrun, rfl, he', hsame⟩ :=
    run_contents_steady (isSteady_shelf c) rfl (knows_iff.2 h)
  rw [d.textBy_placeBelow] at hrun
  exact ⟨e', hrun, knows_iff.1 he', hsame⟩

end Exporter
end SchemaArtifacts
