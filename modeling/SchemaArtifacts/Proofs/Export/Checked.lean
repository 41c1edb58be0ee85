import SchemaArtifacts.Proofs.Cache.Aftermath
import SchemaArtifacts.Proofs.Cache.Deposit
import SchemaArtifacts.Proofs.Name.Refusal

/-!
# What is asked for is what is written

An exporter asks for its artifact by name and stores it by address. The address is the name but for
slashes before it, and those do not count when a name is read. So the path that is found free is the
path that is written, or the name and the address are refused alike. What stands at the path when an
export has ended is the text of the artifact, unless a link stood at its temporary file.

## Main definitions

* `NameError.about` — a refusal of another name
* `Cache.shelfWithin` — a cache as a shelf that waits for some steps of each write

## Main results

* `Name.locate_of_strip` — names that differ in their leading slashes
* `Exporter.exists_of_written` — what an export that has written has done
* `Exporter.written_where_asked` — where an artifact is written, and what it holds
-/

namespace SchemaArtifacts

open Cache Disk

/-! ## Names and addresses -/

/-- The refusal of another name for the same reason. -/
def NameError.about (name : String) : NameError → NameError
  | .empty _ => .empty name
  | .queryOrFragment _ => .queryOrFragment name
  | .missingHost _ => .missingHost name
  | .foreignScheme scheme _ => .foreignScheme scheme name
  | .badSegment segment _ => .badSegment segment name
  | .malformed cause => .malformed cause

@[simp] theorem NameError.isUnsupported_about (name : String) (e : NameError) :
    (e.about name).isUnsupported = e.isUnsupported := by
  cases e <;> rfl

namespace Name

variable {name other : String} {line : List Char}

theorem webSegments_about (name other : String) (line : List Char) :
    webSegments other line = (webSegments name line).mapError (·.about other) := by
  cases hread : Url.ofSchemeless? line with
  | error cause =>
    rw [webSegments_of_error hread, webSegments_of_error hread]
    rfl
  | ok u =>
    rw [webSegments_of_ok hread, webSegments_of_ok hread]
    split
    · rfl
    · split <;> rfl

theorem rawSegments_of_strip (h : strip other = strip name) :
    rawSegments other = (rawSegments name).mapError (·.about other) := by
  by_cases hne : strip name = []
  · rw [rawSegments_of_nil hne, rawSegments_of_nil (h.trans hne)]
    rfl
  · cases hsplit : scheme? (strip name) with
    | none =>
      rw [rawSegments_of_none hne hsplit, rawSegments_of_none (h ▸ hne) (h ▸ hsplit), h]
      rfl
    | some split =>
      obtain ⟨scheme, line⟩ := split
      rw [rawSegments_of_some hsplit, rawSegments_of_some (h ▸ hsplit)]
      split
      · exact webSegments_about name other line
      · split <;> rfl

theorem segments_of_strip (h : strip other = strip name) :
    segments other = (segments name).mapError (·.about other) := by
  unfold segments
  rw [rawSegments_of_strip h]
  cases rawSegments name with
  | error e => rfl
  | ok ss =>
    simp only [Except.mapError, bind, Except.bind]
    split
    · rfl
    · split <;> rfl

/-- Names that differ in their leading slashes have the same path, or are refused for the same reason. -/
theorem locate_of_strip (h : strip other = strip name) (root : AbsolutePath) :
    locate root other = (locate root name).mapError (·.about other) := by
  rw [locate, segments_of_strip h, locate]
  cases segments name <;> rfl

/-- The address of an output name is the name, but for leading slashes. -/
theorem strip_ofOutput (out : String) : strip (Address.ofOutput out).url = strip out := by
  unfold Address.ofOutput
  dsimp only
  split
  · rfl
  · unfold Address.fromTop
    split
    · rfl
    · simp [strip]

end Name

/-! ## Exports that write -/

/-- A cache as a shelf that waits for some steps of each write, for its end if they are enough. -/
def Cache.shelfWithin (steps : Nat) : Shelf Cache :=
  { shelf with store := fun a content => discard (storeWithin steps a content) }

namespace Exporter

variable {c c' : Cache} {d : Document} {e e' : Exporter} {steps : Nat}

/-- What an export does to a cache, however the cache stores. Either it finds its artifact missing and
stores the text of it, or it comes to something else and stores nothing. -/
theorem exists_run_prepare (h : e.StandsFor c.root d) :
    (∃ out text e₁, d.startBelow c.root e.format = .ok out ∧ c.isCached out = .ok (some false) ∧
      d.textBelow c.root e.format = .ok text ∧
      ∀ store : Address → String → Act Cache Unit,
        (prepare { Cache.shelf with store }).run (c, e) =
          (((store (.ofOutput out) text).run c).1.map fun _ => .written,
            (((store (.ofOutput out) text).run c).2, e₁))) ∨
      ∃ result e₁, result ≠ .ok .written ∧ ∀ store : Address → String → Act Cache Unit,
        (prepare { Cache.shelf with store }).run (c, e) = (result, (c, e₁)) := by
  obtain ⟨e₁, hstart, hfor, hsame⟩ := run_start h
  obtain ⟨e₂, hcontents, -, -⟩ := run_contents hfor
  have hformat : e₁.format = e.format := by
    obtain ⟨home, rfl⟩ := hsame
    rfl
  rw [hformat] at hcontents
  have hstart' (store) : (start { Cache.shelf with store }).run (c, e) = _ := hstart
  have hcontents' (store) : (contents { Cache.shelf with store }).run (c, e₁) = _ := hcontents
  have hasked (store) (out : String) :
      (onShelf (Shelf.isCached { Cache.shelf with store } out)).run (c, e₁) =
        ((c.isCached out).mapError .name, (c, e₁)) := by
    simp only [onShelf, Act.run_onPart, Cache.shelf, Act.run_bind, Act.run_get]
    cases c.isCached out <;> rfl
  cases hout : d.startBelow c.root e.format with
  | error failure =>
    refine Or.inr ⟨.error failure, e₁, by simp, fun store => ?_⟩
    rw [prepare, Act.run_bind, hstart', hout]
    rfl
  | ok out =>
    have hprepare (store) : (prepare { Cache.shelf with store }).run (c, e) = (onShelf
        (Shelf.isCached { Cache.shelf with store } out) >>=
          finish { Cache.shelf with store } out).run (c, e₁) := by
      rw [prepare, Act.run_bind, hstart', hout]
      rfl
    simp only [hprepare, Act.run_bind, hasked]
    cases hanswer : c.isCached out with
    | error refusal => exact Or.inr ⟨.error (.name refusal), e₁, by simp, fun store => rfl⟩
    | ok answer =>
      rcases answer with _ | present
      · exact Or.inr ⟨.ok .skipped, e₁, by simp, fun store => rfl⟩
      cases present with
      | true => exact Or.inr ⟨.ok .cached, e₁, by simp, fun store => rfl⟩
      | false =>
        simp only [Except.mapError, finish, Act.run_bind, hcontents']
        cases htext : d.textBelow c.root e.format with
        | error failure => exact Or.inr ⟨.error failure, e₂, by simp, fun store => rfl⟩
        | ok text =>
          refine Or.inl ⟨out, text, e₂, rfl, hanswer, rfl, fun store => ?_⟩
          simp only [onShelf, Act.run_onPart, Act.run_pure]
          rcases (store (.ofOutput out) text).run c with ⟨_ | _, _⟩ <;> rfl

/-- How many steps of a write an export waits for. -/
theorem run_prepare_shelf (h : e.StandsFor c.root d) :
    (prepare Cache.shelf).run (c, e) = (prepare (shelfWithin c.stepLimit)).run (c, e) := by
  have hsame : ∀ a content, (Cache.shelf.store a content).run c =
      ((shelfWithin c.stepLimit).store a content).run c := by
    intro a content
    simp only [Cache.shelf, shelfWithin, Act.run_discard, run_store]
  rcases exists_run_prepare h with ⟨out, text, e₁, -, -, -, hrun⟩ | ⟨result, e₁, -, hrun⟩
  · have hshelf := hrun Cache.shelf.store
    rw [hsame] at hshelf
    exact hshelf.trans (hrun (shelfWithin c.stepLimit).store).symm
  · exact (hrun Cache.shelf.store).trans (hrun (shelfWithin c.stepLimit).store).symm

/-- An export that has written has found its artifact missing and has stored the text of it. -/
theorem exists_of_written (h : e.StandsFor c.root d)
    (hrun : (prepare (shelfWithin steps)).run (c, e) = (.ok .written, (c', e'))) :
    ∃ out text path, e.format.outName d.name = .ok out ∧ c.isCached out = .ok (some false) ∧
      ((contents Cache.shelf).run (c, e)).1 = .ok text ∧
      (storeWithin steps (.ofOutput out) text).run c = (.ok path, c') := by
  rcases exists_run_prepare h with ⟨out, text, e₁, hout, hasked, htext, hall⟩ | ⟨_, _, hne, hall⟩
  · obtain ⟨e₂, hcontents, -, -⟩ := run_contents h
    rw [shelfWithin, hall, Act.run_discard] at hrun
    rcases hstored : (storeWithin steps (.ofOutput out) text).run c with ⟨_ | path, c₁⟩
    · rw [hstored] at hrun
      cases hrun
    · rw [hstored] at hrun
      cases hrun
      refine ⟨out, text, path, (Document.startBelow_eq_ok_iff.1 hout).1, hasked, ?_, hstored⟩
      rw [hcontents, htext]
  · rw [shelfWithin, hall] at hrun
    exact absurd (congrArg Prod.fst hrun) hne

/-- Where an artifact is written, and what it holds. A name and its address have the same path, or are
refused alike, and the address is not local. So an export that has written, after any number of steps of
its write and whatever befell them, has found nothing at the path that it wrote, and the artifact has the
text of the exporter, unless a link stood at its temporary file. -/
theorem written_where_asked (reached : c.IsReached) (quiet : c.Quiescent) (h : e.StandsFor c.root d) :
    (∀ (root : AbsolutePath) (out : String), (Address.ofOutput out).isLocal = false ∧
      (∀ path, Name.locate root (Address.ofOutput out).url = .ok path ↔
        Name.locate root out = .ok path) ∧
      ∀ refusal, Name.locate root out = .error refusal →
        ∃ refusal', Name.locate root (Address.ofOutput out).url = .error refusal' ∧
          refusal'.isUnsupported = refusal.isUnsupported) ∧
    (prepare Cache.shelf).run (c, e) = (prepare (shelfWithin c.stepLimit)).run (c, e) ∧
    ∀ steps c' e', (prepare (shelfWithin steps)).run (c, e) = (.ok .written, (c', e')) →
      ∃ out text path, e.format.outName d.name = .ok out ∧ c.isCached out = .ok (some false) ∧
        c.locate out = .ok path ∧ c.locate (Address.ofOutput out).url = .ok path ∧
        c.isPresent path = false ∧ ((contents Cache.shelf).run (c, e)).1 = .ok text ∧
        (IsUnlinked c.disk path → ∃ top, HasDeposited c.disk path text top c'.disk) := by
  have hsame (root : AbsolutePath) (out : String) :=
    Name.locate_of_strip (Name.strip_ofOutput out) root
  refine ⟨fun root out => ⟨rfl, fun path => ?_, fun refusal hrefusal => ?_⟩, run_prepare_shelf h,
    fun steps c' e' hrun => ?_⟩
  · rw [hsame]
    cases Name.locate root out <;> simp [Except.mapError]
  · rw [hsame, hrefusal]
    exact ⟨_, rfl, NameError.isUnsupported_about _ _⟩
  · obtain ⟨out, text, p, hout, hasked, htext, hstored⟩ := exists_of_written h hrun
    -- The artifact was asked for by its name and is stored by its address: one path.
    obtain ⟨path, hpath, habsent⟩ := isCached_eq_some_iff.1 hasked
    have haddress : c.locate (Address.ofOutput out).url = .ok path := by
      rw [Cache.locate, hsame, ← Cache.locate, hpath]
      rfl
    have hnew : path ∉ c.written := by
      have hparts := (Bool.or_eq_false_iff.1 habsent.symm).1
      simpa [isWritten] using hparts
    exact ⟨out, text, path, hout, hasked, hpath, haddress, habsent.symm, htext, fun hfree =>
      hasDeposited_storeWithin reached.balanced quiet rfl haddress hnew hfree hstored⟩

/-- An artifact that is written into a directory that a link leads to. -/
theorem written_where_asked_behind_link : ∃ (c c' : Cache) (d : Document) (e e' : Exporter)
    (path : AbsolutePath) (text : String) (top : List String),
    c.IsReached ∧ c.Quiescent ∧ e.StandsFor c.root d ∧ c.disk.get? ["out"] = some (.link "real") ∧
      (prepare Cache.shelf).run (c, e) = (.ok .written, (c', e')) ∧ IsUnlinked c.disk path ∧
      HasDeposited c.disk path text top c'.disk := by
  let c : Cache :=
    { root := { parts := ["out"] }
      disk := { entries := [(["real"], .directory), (["out"], .link "real")] } }
  let d : Document := { name := .string "a", declarations := [{ name := .string "X" }] }
  let e : Exporter := { doc := some d, format := .typeScript }
  have hreached : c.IsReached := ⟨c, ⟨rfl, rfl, rfl, rfl⟩, .refl⟩
  have hquiet : c.Quiescent := by simp [Quiescent, c]
  have hfor : e.StandsFor c.root d := ⟨rfl, fun _ hdir => by cases hdir⟩
  obtain ⟨-, hshelf, hwritten⟩ := written_where_asked hreached hquiet hfor
  obtain ⟨status, ⟨c', e'⟩, hrun, rfl⟩ : ∃ status whole, (prepare Cache.shelf).run (c, e) =
      (.ok status, whole) ∧ status = .written :=
    Act.exists_of_map_run (f := id) (by decide +kernel)
  obtain ⟨out, text, path, hout, -, hpath, -, -, -, hdeposited⟩ :=
    hwritten c.stepLimit c' e' (hshelf.symm.trans hrun)
  cases hout
  have hplace : c.locate "a.d.ts" = .ok { parts := ["out", "a.d.ts"] } :=
    Act.eq_ok_of_toOption (by decide +kernel)
  cases hplace.symm.trans hpath
  have hfree : IsUnlinked c.disk { parts := ["out", "a.d.ts"] } :=
    isUnlinked_of_entries (by simp [c, AbsolutePath.name, temporarySuffix])
  obtain ⟨top, h⟩ := hdeposited hfree
  exact ⟨c, c', d, e, e', _, text, top, hreached, hquiet, hfor, by decide, hrun, hfree, h⟩

/-- A link at the temporary file makes a difference: the text is written through it, and the link itself
becomes the artifact. If it leads to the artifact, it then leads to itself. -/
theorem not_written_where_asked_of_link : ¬ ∀ (c c' : Cache) (d : Document) (e e' : Exporter),
    c.IsReached → c.Quiescent → (∀ attempts path moment, c.faults attempts path moment = none) →
    e.StandsFor c.root d → (prepare Cache.shelf).run (c, e) = (.ok .written, (c', e')) →
    ∃ out text path, e.format.outName d.name = .ok out ∧ c.locate out = .ok path ∧
      ((contents Cache.shelf).run (c, e)).1 = .ok text ∧ c'.disk.content? path = some text := by
  intro h
  let c : Cache :=
    { root := { parts := ["out"] }
      disk := { entries := [(["out"], .directory), (["out", "a.d.ts.~tmp"], .link "a.d.ts")] } }
  let d : Document := { name := .string "a", declarations := [{ name := .string "X" }] }
  let e : Exporter := { doc := some d, format := .typeScript }
  have hreached : c.IsReached := ⟨c, ⟨rfl, rfl, rfl, rfl⟩, .refl⟩
  obtain ⟨status, ⟨c', e'⟩, hrun, rfl⟩ : ∃ status whole, (prepare Cache.shelf).run (c, e) =
      (.ok status, whole) ∧ status = .written :=
    Act.exists_of_map_run (f := id) (by decide +kernel)
  obtain ⟨out, text, path, hout, hpath, -, hcontent⟩ := h c c' d e e' hreached
    (by simp [Quiescent, c]) (fun _ _ _ => rfl) ⟨rfl, fun _ hdir => by cases hdir⟩ hrun
  cases hout
  have hplace : c.locate "a.d.ts" = .ok { parts := ["out", "a.d.ts"] } :=
    Act.eq_ok_of_toOption (by decide +kernel)
  cases hplace.symm.trans hpath
  have hdisk : ((prepare Cache.shelf).run (c, e)).2.1.disk.content? { parts := ["out", "a.d.ts"] } =
      none := by decide +kernel
  rw [hrun] at hdisk
  cases hdisk.symm.trans hcontent

end Exporter

end SchemaArtifacts
