import Mathlib.Logic.Function.Basic
import SchemaArtifacts.Proofs.Export.Steady

/-!
# Exporters that are called side by side

Exporters that share a shelf can be called one after the other or at once, and each as often as one
likes. A call is interrupted twice: while it waits to be told whether its artifact is there, and while its
text is being stored. In between it has the shelf to itself. What happens in such a passage follows from
what the shelf lets be seen of it: the texts it has recorded, what it holds, and the paths it has given.

## Main definitions

* `Shelf.Records`, `Shelf.Notes` — a shelf that records what is stored, and what paths it gives
* `Shelf.noting` — any shelf, with a note of the paths it gives
* `Workshop`, `Workshop.Call`, `Workshop.Move`, `Workshop.after` — exporters, their calls, and what can
  happen

## Main results

* `Exporter.arrived_arrive`, `Exporter.proceeded_proceed` — a call before and after it is told whether its
  artifact is there
* `Workshop.after_prepare` — a call that is not interrupted is an export
-/

namespace SchemaArtifacts

variable {σ ι α : Type}

/-! ## Shelves that keep an account -/

/-- What a shelf has recorded and what it holds have stayed as they were. -/
structure SameAccount (writes : σ → List (Address × String)) (held : σ → α) (s s' : σ) : Prop where
  writes : writes s' = writes s
  held : held s' = held s

/-- A shelf that records what is stored: a text that is stored is recorded once, and nothing else that is
asked of the shelf changes its record, nor what it holds. -/
structure Shelf.Records (shelf : Shelf σ) (writes : σ → List (Address × String)) (held : σ → α) :
    Prop where
  locate : ∀ name s, SameAccount writes held s ((shelf.locate name).run s).2
  isCached : ∀ out s, SameAccount writes held s ((shelf.isCached out).run s).2
  stored : ∀ {a text s s'}, (shelf.store a text).run s = (.ok ⟨⟩, s') →
    writes s' = writes s ++ [(a, text)]
  refused : ∀ {a text s s' err}, (shelf.store a text).run s = (.error err, s') →
    SameAccount writes held s s'

/-- It also notes the names whose paths it has given. -/
structure Shelf.Notes (shelf : Shelf σ) (writes : σ → List (Address × String)) (held : σ → α)
    (given : σ → List Json) : Prop extends shelf.Records writes held where
  found : ∀ {name s path s'}, (shelf.locate name).run s = (.ok path, s') →
    given s' = given s ++ [name]
  unfound : ∀ {name s err s'}, (shelf.locate name).run s = (.error err, s') → given s' = given s
  given_isCached : ∀ out s, given ((shelf.isCached out).run s).2 = given s
  given_store : ∀ a text s, given ((shelf.store a text).run s).2 = given s

/-- A shelf, with a note of the names whose paths it has given. -/
structure Noted (σ : Type) where
  shelf : σ
  given : List Json := []

/-- The shelf, with such a note. -/
def Shelf.noting (shelf : Shelf σ) : Shelf (Noted σ) where
  locate name := do
    let path ← (shelf.locate name).onPart Noted.shelf fun s n => { n with shelf := s }
    modify fun n => { n with given := n.given ++ [name] }
    return path
  isCached out := (shelf.isCached out).onPart Noted.shelf fun s n => { n with shelf := s }
  store a text := (shelf.store a text).onPart Noted.shelf fun s n => { n with shelf := s }

section Accounts

variable {shelf : Shelf σ} {writes : σ → List (Address × String)} {held : σ → α}

theorem SameAccount.refl (s : σ) : SameAccount writes held s s := ⟨rfl, rfl⟩

theorem SameAccount.trans {s s' s'' : σ} (h : SameAccount writes held s s')
    (h' : SameAccount writes held s' s'') : SameAccount writes held s s'' :=
  ⟨h'.writes.trans h.writes, h'.held.trans h.held⟩

theorem Shelf.run_locate_noting (shelf : Shelf σ) (name : Json) (n : Noted σ) :
    (shelf.noting.locate name).run n = match (shelf.locate name).run n.shelf with
      | (.ok path, s) => (.ok path, { shelf := s, given := n.given ++ [name] })
      | (.error err, s) => (.error err, { n with shelf := s }) := by
  simp only [noting, Act.run_bind, Act.run_onPart]
  rcases (shelf.locate name).run n.shelf with ⟨_ | path, s⟩ <;> rfl

/-- Every shelf that records what is stored can also note what paths it gives. -/
theorem Shelf.Records.noting (h : shelf.Records writes held) : shelf.noting.Notes
    (fun n => writes n.shelf) (fun n => held n.shelf) Noted.given where
  locate name n := by
    have hsame := h.locate name n.shelf
    rw [run_locate_noting]
    generalize (shelf.locate name).run n.shelf = result at hsame
    rcases result with ⟨_ | path, s⟩ <;> exact ⟨hsame.writes, hsame.held⟩
  isCached out n := ⟨(h.isCached out n.shelf).writes, (h.isCached out n.shelf).held⟩
  stored {a text n n'} hrun := by
    rcases hstore : (shelf.store a text).run n.shelf with ⟨_ | _, s⟩
    all_goals
      rw [Shelf.noting, Act.run_onPart, hstore] at hrun
      cases hrun
    exact h.stored hstore
  refused {a text n n' err} hrun := by
    rcases hstore : (shelf.store a text).run n.shelf with ⟨_ | _, s⟩
    all_goals
      rw [Shelf.noting, Act.run_onPart, hstore] at hrun
      cases hrun
    exact ⟨(h.refused hstore).writes, (h.refused hstore).held⟩
  found {name n path n'} hrun := by
    rw [run_locate_noting] at hrun
    rcases hlocate : (shelf.locate name).run n.shelf with ⟨_ | path, s⟩
    all_goals
      rw [hlocate] at hrun
      cases hrun
    rfl
  unfound {name n err n'} hrun := by
    rw [run_locate_noting] at hrun
    rcases hlocate : (shelf.locate name).run n.shelf with ⟨_ | path, s⟩
    all_goals
      rw [hlocate] at hrun
      cases hrun
    rfl
  given_isCached _ _ := rfl
  given_store _ _ _ := rfl

end Accounts

/-! ## Calls -/

/-- How far a call has come. -/
inductive Workshop.Stage where
  /-- It waits to be told whether its artifact is there. -/
  | asked (out : String)
  /-- It has put its text together and waits for it to be stored. -/
  | storing (out text : String)
  | ended (result : Except Failure ExportStatus)

namespace Exporter

/-- A call, until it waits to be told whether the artifact is there. -/
def arrive (shelf : Shelf σ) : Export σ Workshop.Stage := do
  match ← start shelf with
  | none => return .ended (.ok .noDocument)
  | some out =>
    match ← onShelf (shelf.isCached out) with
    | none => return .ended (.ok .skipped)
    | some _ => return .asked out

/-- A call, once it is told whether the artifact is there, until the text is to be stored. -/
def proceed (shelf : Shelf σ) (out : String) : (answer : Except Failure Bool) → Export σ Workshop.Stage
  | .error err => throw err
  | .ok true => return .ended (.ok .cached)
  | .ok false => return .storing out (← contents shelf)

/-- The end of a call whose text is to be stored. -/
def deposit (shelf : Shelf σ) (out text : String) : Export σ Workshop.Stage := do
  onShelf (shelf.store (.ofOutput out) text)
  return .ended (.ok .written)

end Exporter

namespace Workshop

/-- A part of a call during which nothing else happens: how things stand before it and after it. -/
structure Passage (σ : Type) where
  before : σ × Exporter
  after : σ × Exporter

/-- A call of an exporter. -/
structure Call (σ ι : Type) where
  exporter : ι
  stage : Stage
  passages : List (Passage σ)

/-- How far a call has come after a passage that may have failed. -/
def Stage.ofResult : Except Failure Stage → Stage
  | .ok stage => stage
  | .error err => .ended (.error err)

end Workshop

/-- Exporters that share a shelf, and the calls that there have been. -/
structure Workshop (σ ι : Type) where
  shelf : σ
  exporters : ι → Exporter
  calls : List (Workshop.Call σ ι) := []

namespace Workshop

/-- What can happen: an exporter is called, a call is told whether its artifact is there, its text is
stored or not, or the shelf is changed from outside. -/
inductive Move (σ ι : Type) where
  | call (i : ι)
  | answer (call : Nat) (answer : Except Failure Bool)
  | store (call : Nat)
  | outside (change : σ → σ)

variable [DecidableEq ι]

/-- An exporter has the shelf to itself. -/
def pass (w : Workshop σ ι) (i : ι) (act : Export σ Stage) : Stage × Passage σ × Workshop σ ι :=
  let before := (w.shelf, w.exporters i)
  let (result, after) := act.run before
  (.ofResult result, { before, after },
    { w with shelf := after.1, exporters := Function.update w.exporters i after.2 })

/-- A new call. -/
def begin (shelf : Shelf σ) (w : Workshop σ ι) (i : ι) : Workshop σ ι :=
  let (stage, passage, w') := w.pass i (Exporter.arrive shelf)
  { w' with calls := w.calls ++ [{ exporter := i, stage, passages := [passage] }] }

/-- A call goes on. -/
def resume (w : Workshop σ ι) (k : Nat) (call : Call σ ι) (act : Export σ Stage) : Workshop σ ι :=
  let (stage, passage, w') := w.pass call.exporter act
  { w' with calls := w.calls.set k { call with stage, passages := call.passages ++ [passage] } }

/-- The workshop after a move. What cannot happen is left out. -/
def next (shelf : Shelf σ) (w : Workshop σ ι) : Move σ ι → Workshop σ ι
  | .call i => w.begin shelf i
  | .answer k answer =>
    match w.calls[k]? with
    | some ⟨i, .asked out, passages⟩ =>
      w.resume k ⟨i, .asked out, passages⟩ (Exporter.proceed shelf out answer)
    | _ => w
  | .store k =>
    match w.calls[k]? with
    | some ⟨i, .storing out text, passages⟩ =>
      w.resume k ⟨i, .storing out text, passages⟩ (Exporter.deposit shelf out text)
    | _ => w
  | .outside change => { w with shelf := change w.shelf }

/-- The workshop after some moves. -/
def after (shelf : Shelf σ) (w : Workshop σ ι) (moves : List (Move σ ι)) : Workshop σ ι :=
  moves.foldl (next shelf) w

/-- A workshop of fresh exporters, one for each document or missing document. -/
def fresh (docs : ι → Option Document) (format : ι → Format) (s : σ) : Workshop σ ι where
  shelf := s
  exporters i := { doc := docs i, format := format i }

end Workshop

/-! ## What a passage does -/

namespace Exporter

variable {shelf : Shelf σ} {writes : σ → List (Address × String)} {held : σ → α}
  {given : σ → List Json} {s : σ} {e : Exporter} {d : Document} {dir out text : String}

theorem run_homeDirectory_of_some (h : e.home = some dir) :
    (homeDirectory shelf).run (s, e) = (.ok dir, (s, e)) := by
  simp only [homeDirectory, self, Act.run_bind, Act.run_get, Act.run_pure, h]

theorem run_homeDirectory_of_none (hd : e.doc = some d) (h : e.home = none) :
    (homeDirectory shelf).run (s, e) = match (shelf.locate d.name).run s with
      | (.ok path, s') =>
        let dir := String.ofList (Path.dirname path.toList)
        (.ok dir, (s', { e with home := some dir }))
      | (.error err, s') => (.error err, (s', e)) := by
  simp only [homeDirectory, self, Act.run_bind, Act.run_get, Act.run_pure, h,
    run_document_of_doc hd, onShelf, Act.run_onPart]
  rcases (shelf.locate d.name).run s with ⟨_ | path, s'⟩ <;> rfl

theorem run_pathTo_of_home (h : e.home = some dir) (name : Json) :
    (pathTo shelf name).run (s, e) = match (shelf.locate name).run s with
      | (.ok path, s') =>
        (.ok (String.ofList (Path.moduleSpecifier path.toList dir.toList)), (s', e))
      | (.error err, s') => (.error err, (s', e)) := by
  simp only [pathTo, Act.run_bind, onShelf, Act.run_onPart]
  rcases (shelf.locate name).run s with ⟨_ | path, s'⟩
  · rfl
  · simp only [run_homeDirectory_of_some h, Act.run_pure]

theorem run_start_of_doc (hd : e.doc = some d) :
    (start shelf).run (s, e) = match e.format.outName d.name with
      | .error err => (.error (.shape err), (s, e))
      | .ok out => (((homeDirectory shelf).run (s, e)).1.map fun _ => some out,
          ((homeDirectory shelf).run (s, e)).2) := by
  simp only [start, outName, self, Act.run_bind, Act.run_get, Act.run_pure, hd, Option.isNone_some,
    Bool.false_eq_true, ↓reduceIte, run_document_of_doc hd]
  cases e.format.outName d.name with
  | error err => rfl
  | ok out =>
    simp only [shaped, Act.run_ofExcept_ok, Act.run_discard]
    rcases (homeDirectory shelf).run (s, e) with ⟨_ | _, _⟩ <;> rfl

/-- What a call can have come to at first. If it waits for an answer, it knows its directory. -/
def IsArrival (before after : Exporter) : Workshop.Stage → Prop
  | .asked out => after.home.isSome ∧ ∃ d, before.doc = some d ∧ before.format.outName d.name = .ok out
  | .storing _ _ => False
  | .ended (.ok status) => status = .noDocument ∨ status = .skipped
  | .ended (.error _) => True

/-- What happens until a call waits to be told whether its artifact is there, or has ended before. Of
names, at most that of its own document is looked up, and only if the directory is not known. -/
structure Arrived (writes : σ → List (Address × String)) (held : σ → α) (given : σ → List Json)
    (before after : σ × Exporter) (stage : Workshop.Stage) : Prop where
  account : SameAccount writes held before.1 after.1
  exporter : SameButHome before.2 after.2
  home : (after.2.home = before.2.home ∧ given after.1 = given before.1) ∨
    before.2.home = none ∧ after.2.home.isSome ∧
      ∃ d, before.2.doc = some d ∧ given after.1 = given before.1 ++ [d.name]
  stage : IsArrival before.2 after.2 stage

theorem Arrived.isSome_home {before after : σ × Exporter} {stage : Workshop.Stage}
    (h : Arrived writes held given before after stage) (hsome : before.2.home.isSome) :
    after.2.home.isSome := by
  obtain ⟨hsame, -⟩ | ⟨hnone, -⟩ := h.home
  · rw [hsame]
    exact hsome
  · rw [hnone] at hsome
    cases hsome

/-- A start that fails has ended the call. -/
theorem run_arrive_of_error {before after : σ × Exporter} {err : Failure}
    (hrun : (start shelf).run before = (.error err, after)) :
    (arrive shelf).run before = (.error err, after) := by
  simp only [arrive, Act.run_bind, hrun]

/-- After a start the shelf's answer decides: it may keep no such artifact at all. -/
theorem run_arrive_of_started {before after : σ × Exporter}
    (hrun : (start shelf).run before = (.ok (some out), after)) {s' : σ}
    {present : Except Failure (Option Bool)}
    (hcached : (shelf.isCached out).run after.1 = (present, s')) :
    (arrive shelf).run before =
      (present.map (Option.elim · (.ended (.ok .skipped)) fun _ => .asked out), (s', after.2)) := by
  simp only [arrive, onShelf, Act.run_bind, Act.run_onPart, hrun, hcached]
  obtain err | _ | _ := present <;> rfl

/-- After a start the shelf is asked for the artifact, which changes nothing that is seen of it. -/
theorem arrived_of_started (h : shelf.Notes writes held given) {before after : σ × Exporter}
    (hrun : (start shelf).run before = (.ok (some out), after))
    (hstart : Arrived writes held given before after (.asked out)) :
    Arrived writes held given before ((arrive shelf).run before).2
      (.ofResult ((arrive shelf).run before).1) := by
  have haccount := h.isCached out after.1
  have hgiven := h.given_isCached out after.1
  have hasked : ∀ stage, IsArrival before.2 after.2 stage →
      Arrived writes held given before (((shelf.isCached out).run after.1).2, after.2) stage := by
    intro stage hstage
    refine ⟨hstart.account.trans haccount, hstart.exporter, ?_, hstage⟩
    rw [hgiven]
    exact hstart.home
  rcases hcached : (shelf.isCached out).run after.1 with ⟨err | _ | _, s'⟩
  all_goals rw [hcached] at hasked; rw [run_arrive_of_started hrun hcached]
  · exact hasked (.ended (.error err)) trivial
  · exact hasked (.ended (.ok .skipped)) (.inr rfl)
  · exact hasked (.asked out) hstart.stage

/-- Whatever a call comes to at first, it has recorded nothing and put no text together. -/
theorem arrived_arrive (h : shelf.Notes writes held given) (before : σ × Exporter) :
    Arrived writes held given before ((arrive shelf).run before).2
      (.ofResult ((arrive shelf).run before).1) := by
  obtain ⟨s, e⟩ := before
  cases hd : e.doc with
  | none =>
    have hrun : (arrive shelf).run (s, e) = (.ok (.ended (.ok .noDocument)), (s, e)) := by
      simp only [arrive, start, self, Act.run_bind, Act.run_get, Act.run_pure, hd, Option.isNone_none,
        ↓reduceIte]
    rw [hrun]
    exact ⟨.refl s, .refl e, .inl ⟨rfl, rfl⟩, .inl rfl⟩
  | some d =>
    have hstart : (start shelf).run (s, e) = _ := run_start_of_doc hd
    cases hout : e.format.outName d.name with
    | error err =>
      rw [hout] at hstart
      rw [run_arrive_of_error hstart]
      exact ⟨.refl s, .refl e, .inl ⟨rfl, rfl⟩, trivial⟩
    | ok out =>
      rw [hout] at hstart
      cases hh : e.home with
      | some dir =>
        rw [run_homeDirectory_of_some hh] at hstart
        exact arrived_of_started h hstart
          ⟨.refl s, .refl e, .inl ⟨rfl, rfl⟩, by rw [hh]; rfl, d, hd, hout⟩
      | none =>
        have haccount := h.locate d.name s
        rw [run_homeDirectory_of_none hd hh] at hstart
        rcases hlocate : (shelf.locate d.name).run s with ⟨err | path, s'⟩
        · rw [hlocate] at hstart haccount
          rw [run_arrive_of_error hstart]
          exact ⟨haccount, .refl e, .inl ⟨rfl, h.unfound hlocate⟩, trivial⟩
        · rw [hlocate] at hstart haccount
          exact arrived_of_started h hstart
            ⟨haccount, ⟨_, rfl⟩, .inr ⟨hh, rfl, d, hd, h.found hlocate⟩, rfl, d, hd, hout⟩

/-! ## What is looked up for a text -/

/-- Whatever state the shelf is in, an operation looks up these names one after the other, as far as they
are given, and changes nothing else. -/
def LooksUp {β : Type} (writes : σ → List (Address × String)) (held : σ → α) (given : σ → List Json)
    (e : Exporter) (names : List Json) (act : Export σ β) : Prop :=
  ∀ s, ∃ result s' seen, act.run (s, e) = (result, (s', e)) ∧ SameAccount writes held s s' ∧
    given s' = given s ++ seen ∧ seen <+: names ∧ ∀ b, result = .ok b → seen = names

section LooksUp

variable {β γ : Type} {names names' : List Json}

theorem looksUp_pure (b : β) : LooksUp writes held given e [] (pure b) :=
  fun s => ⟨_, s, [], rfl, .refl s, by simp, List.prefix_refl _, fun _ _ => rfl⟩

theorem LooksUp.bind {act : Export σ β} {next : β → Export σ γ}
    (h : LooksUp writes held given e names act)
    (hn : ∀ b, LooksUp writes held given e names' (next b)) :
    LooksUp writes held given e (names ++ names') (act >>= next) := by
  intro s
  obtain ⟨result, s', seen, hrun, haccount, hgiven, hseen, hall⟩ := h s
  rw [Act.run_bind, hrun]
  cases result with
  | error err =>
    exact ⟨_, s', seen, rfl, haccount, hgiven, hseen.trans (List.prefix_append _ _),
      fun _ heq => by cases heq⟩
  | ok b =>
    obtain rfl := hall b rfl
    obtain ⟨result', s'', seen', hrun', haccount', hgiven', hseen', hall'⟩ := hn b s'
    refine ⟨result', s'', seen ++ seen', hrun', haccount.trans haccount', ?_,
      List.prefix_append_right_inj _ |>.2 hseen', fun c heq => by rw [hall' c heq]⟩
    rw [hgiven', hgiven, List.append_assoc]

theorem looksUp_mapM {f : β → Export σ γ} {name : β → Json}
    (h : ∀ b, LooksUp writes held given e [name b] (f b)) (bs : List β) :
    LooksUp writes held given e (bs.map name) (bs.mapM f) := by
  induction bs with
  | nil => exact looksUp_pure _
  | cons b bs ih =>
    rw [List.mapM_cons, List.map_cons, ← List.append_nil (bs.map name)]
    exact (h b).bind fun _ => ih.bind fun _ => looksUp_pure _

/-- Once the directory is known, an import is looked up by its own name alone. -/
theorem looksUp_pathTo (h : shelf.Notes writes held given) (hh : e.home = some dir) (name : Json) :
    LooksUp writes held given e [name] (pathTo shelf name) := by
  intro s
  have haccount := h.locate name s
  rw [run_pathTo_of_home hh]
  rcases hlocate : (shelf.locate name).run s with ⟨err | path, s'⟩
  · rw [hlocate] at haccount
    exact ⟨_, s', [], rfl, haccount, by simpa using h.unfound hlocate, List.nil_prefix,
      fun _ heq => by cases heq⟩
  · rw [hlocate] at haccount
    exact ⟨_, s', [name], rfl, haccount, h.found hlocate, List.prefix_refl _, fun _ _ => rfl⟩

theorem looksUp_header (h : shelf.Notes writes held given) (hd : e.doc = some d)
    (hh : e.home = some dir) :
    LooksUp writes held given e (d.foreignImports.map Prod.snd) (header shelf) := by
  have hline : ∀ entry : String × Json, LooksUp writes held given e [entry.2]
      (do return e.format.importLine entry.1 (← pathTo shelf entry.2) entry.2) := by
    intro entry
    rw [← List.append_nil [entry.2]]
    exact (looksUp_pathTo h hh entry.2).bind fun _ => looksUp_pure _
  intro s
  simp only [header, self, Act.run_bind, run_document_of_doc hd, Act.run_get, Act.run_pure]
  exact looksUp_mapM hline d.foreignImports s

end LooksUp

/-- What happens when an exporter that knows its directory puts its text together, whether it comes to a
text or not: the exporter counts it, and imports are looked up. -/
theorem run_contents_of_home (h : shelf.Notes writes held given) (hd : e.doc = some d)
    (hh : e.home = some dir) (s : σ) :
    ∃ result s' seen, (contents shelf).run (s, e) = (result, (s', { e with renders := e.renders + 1 })) ∧
      SameAccount writes held s s' ∧ given s' = given s ++ seen ∧
      seen <+: d.foreignImports.map Prod.snd := by
  obtain ⟨result, s', seen, hrun, haccount, hgiven, hseen, -⟩ :=
    looksUp_header (e := { e with renders := e.renders + 1 }) h hd hh s
  have hdoc : ({ e with renders := e.renders + 1 } : Exporter).doc = some d := hd
  simp only [contents, self, Act.run_bind, Act.run_modify, Act.run_get, Act.run_pure,
    run_document_of_doc hdoc]
  cases e.format.compose d with
  | error err => exact ⟨_, s, [], rfl, .refl s, by simp, List.nil_prefix⟩
  | ok text =>
    simp only [shaped, Act.run_ofExcept_ok, hrun]
    cases result with
    | error err => exact ⟨_, s', seen, rfl, haccount, hgiven, hseen⟩
    | ok lines => exact ⟨_, s', seen, rfl, haccount, hgiven, hseen⟩

/-- What a call can come to when it has been told whether its artifact is there, and how many texts it
has put together then. -/
def IsSequel (shelf : Shelf σ) (out : String) (before after : σ × Exporter) (texts : Nat) :
    Workshop.Stage → Prop
  | .asked _ => False
  | .storing out' text =>
    out' = out ∧ (contents shelf).run before = (.ok text, after) ∧ texts = 1
  | .ended (.ok status) => status = .cached ∧ texts = 0
  | .ended (.error _) => texts ≤ 1

/-- What happens between the answer and the time when the text is to be stored. -/
structure Proceeded (shelf : Shelf σ) (writes : σ → List (Address × String)) (held : σ → α)
    (given : σ → List Json) (d : Document) (out : String) (before after : σ × Exporter) (texts : Nat)
    (stage : Workshop.Stage) : Prop where
  account : SameAccount writes held before.1 after.1
  exporter : after.2 = { before.2 with renders := before.2.renders + texts }
  given : ∃ seen, given after.1 = given before.1 ++ seen ∧ seen <+: d.foreignImports.map Prod.snd
  stage : IsSequel shelf out before after texts stage

/-- Whatever the answer, a call goes on with at most one text, and it records nothing. -/
theorem proceeded_proceed (h : shelf.Notes writes held given) (hd : e.doc = some d)
    (hh : e.home.isSome) (s : σ) (out : String) (answer : Except Failure Bool) :
    ∃ texts, Proceeded shelf writes held given d out (s, e)
      ((proceed shelf out answer).run (s, e)).2 texts
      (.ofResult ((proceed shelf out answer).run (s, e)).1) := by
  obtain ⟨dir, hdir⟩ := Option.isSome_iff_exists.1 hh
  have hsame : ∀ stage, IsSequel shelf out (s, e) (s, e) 0 stage →
      Proceeded shelf writes held given d out (s, e) (s, e) 0 stage := fun stage hstage =>
    ⟨.refl _, rfl, ⟨[], by simp, List.nil_prefix⟩, hstage⟩
  rcases answer with err | _ | _
  · exact ⟨0, hsame (.ended (.error err)) (Nat.zero_le 1)⟩
  · obtain ⟨result, s', seen, hrun, haccount, hgiven, hseen⟩ := run_contents_of_home h hd hdir s
    have hput : ∀ stage, IsSequel shelf out (s, e) (s', { e with renders := e.renders + 1 }) 1 stage →
        Proceeded shelf writes held given d out (s, e) (s', { e with renders := e.renders + 1 }) 1
          stage := fun stage hstage =>
      ⟨haccount, rfl, ⟨seen, hgiven, hseen⟩, hstage⟩
    refine ⟨1, ?_⟩
    simp only [proceed, Act.run_bind, hrun]
    cases result with
    | error err => exact hput (.ended (.error err)) (Nat.le_refl 1)
    | ok text => exact hput (.storing out text) ⟨rfl, hrun, rfl⟩
  · exact ⟨0, hsame (.ended (.ok .cached)) ⟨rfl, rfl⟩⟩

/-- What happens when a text is stored or refused: nothing but that a text that is stored is recorded. -/
inductive Deposited (writes : σ → List (Address × String)) (held : σ → α) (out text : String)
    (s s' : σ) : Workshop.Stage → Prop
  | stored (h : writes s' = writes s ++ [(.ofOutput out, text)]) :
    Deposited writes held out text s s' (.ended (.ok .written))
  | refused (err : Failure) (h : SameAccount writes held s s') :
    Deposited writes held out text s s' (.ended (.error err))

theorem deposited_deposit (h : shelf.Notes writes held given) (out text : String)
    (before : σ × Exporter) : ∃ s', ((deposit shelf out text).run before).2 = (s', before.2) ∧
      given s' = given before.1 ∧ Deposited writes held out text before.1 s'
        (.ofResult ((deposit shelf out text).run before).1) := by
  have hgiven := h.given_store (.ofOutput out) text before.1
  simp only [deposit, Act.run_bind, onShelf, Act.run_onPart]
  rcases hstore : (shelf.store (.ofOutput out) text).run before.1 with ⟨err | _, s'⟩
  · rw [hstore] at hgiven
    exact ⟨s', rfl, hgiven, .refused err (h.refused hstore)⟩
  · rw [hstore] at hgiven
    exact ⟨s', rfl, hgiven, .stored (h.stored hstore)⟩

end Exporter

/-! ## Calls that are not interrupted -/

namespace Workshop

variable [DecidableEq ι] {shelf : Shelf σ} {w : Workshop σ ι} {i : ι} {s : σ} {e : Exporter}
  {passages : List (Passage σ)} {out text : String}

/-- The workshop with one call more, which has left the shelf and its exporter so. -/
def put (w : Workshop σ ι) (i : ι) (s : σ) (e : Exporter) (stage : Stage)
    (passages : List (Passage σ)) : Workshop σ ι where
  shelf := s
  exporters := Function.update w.exporters i e
  calls := w.calls ++ [⟨i, stage, passages⟩]

theorem next_call {result : Except Failure Stage} {after : σ × Exporter}
    (hrun : (Exporter.arrive shelf).run (w.shelf, w.exporters i) = (result, after)) :
    w.next shelf (.call i) = w.put i after.1 after.2 (.ofResult result)
      [⟨(w.shelf, w.exporters i), after⟩] := by
  simp only [next, begin, pass, hrun, put]

/-- A call that has ended stays as it is. -/
theorem next_put_of_ended (result : Except Failure ExportStatus) {move : Move σ ι}
    (h : move = .store w.calls.length ∨ ∃ answer, move = .answer w.calls.length answer) :
    (w.put i s e (.ended result) passages).next shelf move =
      w.put i s e (.ended result) passages := by
  obtain rfl | ⟨answer, rfl⟩ := h <;> simp [next, put]

theorem resume_put {stage : Stage} {act : Export σ Stage} {result : Except Failure Stage}
    {after : σ × Exporter} (hrun : act.run (s, e) = (result, after)) :
    (w.put i s e stage passages).resume w.calls.length ⟨i, stage, passages⟩ act =
      w.put i after.1 after.2 (.ofResult result) (passages ++ [⟨(s, e), after⟩]) := by
  simp [resume, pass, put, hrun]

theorem next_put_answer {answer : Except Failure Bool} {result : Except Failure Stage}
    {after : σ × Exporter}
    (hrun : (Exporter.proceed shelf out answer).run (s, e) = (result, after)) :
    (w.put i s e (.asked out) passages).next shelf (.answer w.calls.length answer) =
      w.put i after.1 after.2 (.ofResult result) (passages ++ [⟨(s, e), after⟩]) := by
  have hresume : (w.put i s e (.asked out) passages).resume w.calls.length
      ⟨i, .asked out, passages⟩ (Exporter.proceed shelf out answer) = _ := resume_put hrun
  rw [← hresume]
  simp [next, put]

theorem next_put_store {result : Except Failure Stage} {after : σ × Exporter}
    (hrun : (Exporter.deposit shelf out text).run (s, e) = (result, after)) :
    (w.put i s e (.storing out text) passages).next shelf (.store w.calls.length) =
      w.put i after.1 after.2 (.ofResult result) (passages ++ [⟨(s, e), after⟩]) := by
  have hresume : (w.put i s e (.storing out text) passages).resume w.calls.length
      ⟨i, .storing out text, passages⟩ (Exporter.deposit shelf out text) = _ := resume_put hrun
  rw [← hresume]
  simp [next, put]

/-- A call that has ended at first takes no notice of what happens later. -/
theorem after_of_arrived (stage : Except Failure Stage) {after : σ × Exporter}
    {result : Except Failure ExportStatus} (hstage : Stage.ofResult stage = .ended result)
    (hrun : (Exporter.arrive shelf).run (w.shelf, w.exporters i) = (stage, after))
    (answer : Except Failure Bool) :
    w.after shelf [.call i, .answer w.calls.length answer, .store w.calls.length] =
      w.put i after.1 after.2 (.ended result) [⟨(w.shelf, w.exporters i), after⟩] := by
  rw [Workshop.after, List.foldl_cons, List.foldl_cons, List.foldl_cons, List.foldl_nil,
    next_call hrun, hstage, next_put_of_ended result (.inr ⟨_, rfl⟩),
    next_put_of_ended result (.inl rfl)]

/-- Nor does one that has ended with the answer. -/
theorem after_of_proceeded (stage : Except Failure Stage) {before after : σ × Exporter}
    {result : Except Failure ExportStatus} (hstage : Stage.ofResult stage = .ended result)
    (hrun : (Exporter.arrive shelf).run (w.shelf, w.exporters i) = (.ok (.asked out), before))
    {answer : Except Failure Bool}
    (hrun' : (Exporter.proceed shelf out answer).run before = (stage, after)) :
    w.after shelf [.call i, .answer w.calls.length answer, .store w.calls.length] =
      w.put i after.1 after.2 (.ended result)
        [⟨(w.shelf, w.exporters i), before⟩, ⟨before, after⟩] := by
  rw [Workshop.after, List.foldl_cons, List.foldl_cons, List.foldl_cons, List.foldl_nil,
    next_call hrun, Stage.ofResult, next_put_answer hrun', hstage,
    next_put_of_ended result (.inl rfl)]
  rfl

/-- Only a call that is told that its artifact is missing goes through all three passages. -/
theorem after_of_deposited (stage : Except Failure Stage) {before after last : σ × Exporter}
    (hrun : (Exporter.arrive shelf).run (w.shelf, w.exporters i) = (.ok (.asked out), before))
    {answer : Except Failure Bool}
    (hrun' : (Exporter.proceed shelf out answer).run before = (.ok (.storing out text), after))
    (hrun'' : (Exporter.deposit shelf out text).run after = (stage, last)) :
    w.after shelf [.call i, .answer w.calls.length answer, .store w.calls.length] =
      w.put i last.1 last.2 (.ofResult stage)
        [⟨(w.shelf, w.exporters i), before⟩, ⟨before, after⟩, ⟨after, last⟩] := by
  rw [Workshop.after, List.foldl_cons, List.foldl_cons, List.foldl_cons, List.foldl_nil,
    next_call hrun, Stage.ofResult, next_put_answer hrun', Stage.ofResult, next_put_store hrun'']
  rfl

/-- A call that is not interrupted, and is told what the shelf says at once, is an export. -/
theorem after_prepare (shelf : Shelf σ) (w : Workshop σ ι) (i : ι) :
    ∃ answer passages, w.after shelf
        [.call i, .answer w.calls.length answer, .store w.calls.length] =
      let (result, after) := (Exporter.prepare shelf).run (w.shelf, w.exporters i)
      w.put i after.1 after.2 (.ended result) passages := by
  simp only [Exporter.prepare, Act.run_bind]
  rcases hstart : (Exporter.start shelf).run (w.shelf, w.exporters i) with ⟨err | _ | out, s, e⟩
  · exact ⟨.ok true, _, after_of_arrived _ rfl (Exporter.run_arrive_of_error hstart) _⟩
  · refine ⟨.ok true, _, after_of_arrived (.ok (.ended (.ok .noDocument))) rfl ?_ _⟩
    simp only [Exporter.arrive, Act.run_bind, hstart, Act.run_pure]
  simp only [Exporter.onShelf, Act.run_bind, Act.run_onPart]
  rcases hcached : (shelf.isCached out).run s with ⟨err | _ | present, s'⟩
  all_goals have harrive := Exporter.run_arrive_of_started hstart hcached
  · exact ⟨.ok true, _, after_of_arrived _ rfl harrive _⟩
  · exact ⟨.ok true, _, after_of_arrived _ rfl harrive _⟩
  cases present with
  | true =>
    refine ⟨.ok true, _, after_of_proceeded (.ok (.ended (.ok .cached))) rfl harrive ?_⟩
    rfl
  | false =>
    simp only [Exporter.finish, Act.run_bind]
    rcases hcontents : (Exporter.contents shelf).run (s', e) with ⟨err | text, after⟩
    · refine ⟨.ok false, _, after_of_proceeded (.error err) rfl harrive ?_⟩
      simp only [Exporter.proceed, Act.run_bind, hcontents]
    · have hproceed : (Exporter.proceed shelf out (.ok false)).run (s', e) =
          (.ok (.storing out text), after) := by
        simp only [Exporter.proceed, Act.run_bind, hcontents, Act.run_pure]
      simp only [Exporter.onShelf, Act.run_onPart]
      rcases hstored : (shelf.store (.ofOutput out) text).run after.1 with ⟨err | _, s''⟩
      · refine ⟨.ok false, _, after_of_deposited (.error err) harrive hproceed ?_⟩
        simp only [Exporter.deposit, Exporter.onShelf, Act.run_bind, Act.run_onPart, hstored]
      · refine ⟨.ok false, _,
          after_of_deposited (.ok (.ended (.ok .written))) harrive hproceed ?_⟩
        simp only [Exporter.deposit, Exporter.onShelf, Act.run_bind, Act.run_onPart, hstored,
          Act.run_pure]

end Workshop
end SchemaArtifacts
