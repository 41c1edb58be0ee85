import SchemaArtifacts.Export.Exporter

/-!
# What an exporter finds out on a steady shelf

A shelf is steady if the path of a name is the same whenever it is asked for. On such a shelf, what an
exporter finds out before it stores its text follows from the paths alone: it does not depend on what
happened to the shelf before, nor on how much the exporter has found out already.

## Main definitions

* `Shelf.IsSteady` — the path of a name is always the same
* `Document.homeBy`, `Document.specifierBy`, `Document.headerBy`, `Document.textBy` — the directory of
  a document, how it names another, its import lines and its text, told from the paths
* `Exporter.Knows` — what the exporter of a document has found out is right
* `Exporter.Settles` — what an operation of an exporter comes to

## Main results

* `Exporter.settles_homeDirectory`, `Exporter.settles_pathTo`, `Exporter.run_header_steady`,
  `Exporter.run_contents_steady` — what the exporter of a document finds out
-/

namespace SchemaArtifacts

variable {σ α β : Type} {shelf : Shelf σ} {fits : σ → Prop} {place : Json → Except Failure String}

/-- As long as the state of a shelf fits, the path of each name is that of `place`, and the state goes
on to fit when it is asked for. -/
structure Shelf.IsSteady (shelf : Shelf σ) (fits : σ → Prop)
    (place : Json → Except Failure String) : Prop where
  answer : ∀ name s, fits s → ((shelf.locate name).run s).1 = place name
  fits : ∀ name s, fits s → fits ((shelf.locate name).run s).2

namespace Document

/-- The directory of the artifact of a document. -/
def homeBy (place : Json → Except Failure String) (d : Document) : Except Failure String :=
  (place d.name).map fun path => String.ofList (Path.dirname path.toList)

/-- How a document names the artifact of another. -/
def specifierBy (place : Json → Except Failure String) (d : Document) (name : Json) :
    Except Failure String := do
  let target ← place name
  let dir ← d.homeBy place
  return String.ofList (Path.moduleSpecifier target.toList dir.toList)

/-- The import lines of a document. -/
def headerBy (place : Json → Except Failure String) (format : Format) (d : Document) :
    Except Failure (List String) :=
  d.foreignImports.mapM fun (alias_, full) => do
    return format.importLine alias_ (← d.specifierBy place full) full

/-- The text of the artifact of a document. -/
def textBy (place : Json → Except Failure String) (format : Format) (d : Document) :
    Except Failure String := do
  let text ← (format.compose d).mapError .shape
  return text (← d.headerBy place format)

end Document

namespace Exporter

variable {e : Exporter} {d : Document}

/-- What the exporter of a document has found out about the document's directory is right. -/
structure Knows (e : Exporter) (place : Json → Except Failure String) (d : Document) : Prop where
  doc : e.doc = some d
  home : ∀ dir, e.home = some dir → d.homeBy place = .ok dir

theorem knows_of_fresh (h : e.doc = some d) (hhome : e.home = none) : e.Knows place d :=
  ⟨h, fun _ hdir => by rw [hhome] at hdir; cases hdir⟩

/-- Two exporters differ at most in what they have found out about the directory. -/
def SameButHome (e e' : Exporter) : Prop := ∃ home, e' = { e with home }

section SameButHome

variable {e e' e'' : Exporter}

theorem SameButHome.doc_eq (h : SameButHome e e') : e'.doc = e.doc := by
  obtain ⟨home, rfl⟩ := h
  rfl

theorem SameButHome.format_eq (h : SameButHome e e') : e'.format = e.format := by
  obtain ⟨home, rfl⟩ := h
  rfl

theorem SameButHome.renders_eq (h : SameButHome e e') : e'.renders = e.renders := by
  obtain ⟨home, rfl⟩ := h
  rfl

theorem SameButHome.refl (e : Exporter) : SameButHome e e := ⟨e.home, rfl⟩

theorem SameButHome.trans (h : SameButHome e e') (h' : SameButHome e' e'') :
    SameButHome e e'' := by
  obtain ⟨home, rfl⟩ := h
  obtain ⟨home', rfl⟩ := h'
  exact ⟨home', rfl⟩

end SameButHome

/-- From every state that fits, every exporter that knows no better of a document gets `answer` from
`act`, and finds out at most the document's directory. -/
def Settles (fits : σ → Prop) (place : Json → Except Failure String) (d : Document)
    (act : Export σ α) (answer : Except Failure α) : Prop :=
  ∀ (s : σ) (e : Exporter), fits s → e.Knows place d →
    ∃ s' e', act.run (s, e) = (answer, (s', e')) ∧ fits s' ∧ e'.Knows place d ∧ SameButHome e e'

section Settles

theorem settles_pure (a : α) : Settles fits place d (pure a) (.ok a) :=
  fun s e hs he => ⟨s, e, rfl, hs, he, .refl e⟩

theorem Settles.bind {act : Export σ α} {answer : Except Failure α} {next : α → Export σ β}
    {answers : α → Except Failure β} (h : Settles fits place d act answer)
    (hn : ∀ a, Settles fits place d (next a) (answers a)) :
    Settles fits place d (act >>= next) (answer >>= answers) := by
  intro s e hs he
  obtain ⟨s', e', hrun, hs', he', hsame⟩ := h s e hs he
  cases answer with
  | error err => exact ⟨s', e', by rw [Act.run_bind, hrun]; rfl, hs', he', hsame⟩
  | ok a =>
    obtain ⟨s'', e'', hrun', hs'', he'', hsame'⟩ := hn a s' e' hs' he'
    refine ⟨s'', e'', ?_, hs'', he'', hsame.trans hsame'⟩
    rw [Act.run_bind, hrun]
    exact hrun'

theorem settles_mapM {f : α → Export σ β} {answers : α → Except Failure β}
    (h : ∀ a, Settles fits place d (f a) (answers a)) (as : List α) :
    Settles fits place d (as.mapM f) (as.mapM answers) := by
  induction as with
  | nil => exact settles_pure _
  | cons a as ih =>
    rw [List.mapM_cons, List.mapM_cons]
    exact (h a).bind fun b => ih.bind fun bs => settles_pure _

theorem run_document_of_doc (h : e.doc = some d) (property : String) (s : σ) :
    (document property : Export σ Document).run (s, e) = (.ok d, (s, e)) := by
  simp only [document, self, Act.run_bind, Act.run_get, Act.run_pure, h]

theorem settles_locate (h : shelf.IsSteady fits place) (name : Json) :
    Settles fits place d (onShelf (shelf.locate name)) (place name) := by
  intro s e hs he
  refine ⟨_, e, ?_, h.fits name s hs, he, .refl e⟩
  rw [onShelf, Act.run_onPart, h.answer name s hs]

/-- The directory is that of the document's own path, looked up now or before. -/
theorem settles_homeDirectory (h : shelf.IsSteady fits place) :
    Settles fits place d (homeDirectory shelf) (d.homeBy place) := by
  intro s e hs he
  simp only [homeDirectory, self, Act.run_bind, Act.run_get, Act.run_pure]
  cases hh : e.home with
  | some dir =>
    refine ⟨s, e, ?_, hs, he, .refl e⟩
    rw [Act.run_pure, he.home dir hh]
  | none =>
    obtain ⟨s', e', hrun, hs', -, -⟩ := settles_locate h d.name s e hs he
    have hstate : e' = e := by
      rw [onShelf, Act.run_onPart] at hrun
      exact (congrArg (fun r => r.2.2) hrun).symm
    subst hstate
    simp only [Act.run_bind, run_document_of_doc he.doc, hrun]
    cases hp : place d.name with
    | error err => exact ⟨s', e', by simp [Document.homeBy, hp, Except.map], hs', he, .refl e'⟩
    | ok path =>
      have hdir : d.homeBy place = .ok (String.ofList (Path.dirname path.toList)) := by
        simp [Document.homeBy, hp, Except.map]
      refine ⟨s', { e' with home := some (String.ofList (Path.dirname path.toList)) }, ?_, hs',
        ⟨he.doc, fun _ hd => ?_⟩, ⟨_, rfl⟩⟩
      · rw [hdir]
        rfl
      · cases hd
        exact hdir

theorem settles_pathTo (h : shelf.IsSteady fits place) (name : Json) :
    Settles fits place d (pathTo shelf name) (d.specifierBy place name) := by
  unfold pathTo Document.specifierBy
  exact (settles_locate h name).bind fun target =>
    (settles_homeDirectory h).bind fun dir => settles_pure _

theorem run_header_steady (h : shelf.IsSteady fits place) {s : σ} (hs : fits s)
    (he : e.Knows place d) :
    ∃ s' e', (header shelf).run (s, e) = (d.headerBy place e.format, (s', e')) ∧ fits s' ∧
      e'.Knows place d ∧ SameButHome e e' := by
  simp only [header, self, Act.run_bind, run_document_of_doc he.doc, Act.run_get, Act.run_pure]
  have hline : ∀ a : String × Json, Settles fits place d
      (do return e.format.importLine a.1 (← pathTo shelf a.2) a.2)
      (do return e.format.importLine a.1 (← d.specifierBy place a.2) a.2) :=
    fun a => (settles_pathTo h a.2).bind fun path => settles_pure _
  exact settles_mapM hline d.foreignImports s e hs he

theorem run_contents_steady (h : shelf.IsSteady fits place) {s : σ} (hs : fits s)
    (he : e.Knows place d) :
    ∃ s' e', (contents shelf).run (s, e) = (d.textBy place e.format, (s', e')) ∧ fits s' ∧
      e'.Knows place d ∧ SameButHome { e with renders := e.renders + 1 } e' := by
  have he' : Knows { e with renders := e.renders + 1 } place d := ⟨he.doc, he.home⟩
  obtain ⟨s', e', hrun, hs', hknows, hsame⟩ := run_header_steady h hs he'
  simp only [contents, self, Act.run_bind, Act.run_modify, Act.run_get, Act.run_pure,
    run_document_of_doc he'.doc]
  unfold Document.textBy
  cases hc : e.format.compose d with
  | error err => exact ⟨s, _, rfl, hs, he', .refl _⟩
  | ok text =>
    refine ⟨s', e', ?_, hs', hknows, hsame⟩
    simp only [shaped, Act.run_ofExcept_ok, hrun]
    cases d.headerBy place e.format <;> rfl

end Settles

end Exporter
end SchemaArtifacts
