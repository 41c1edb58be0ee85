import SchemaArtifacts.Proofs.Session.Report

/-!
# Artifacts without a path

The name of an artifact may have no path in the cache. An export that comes to this leaves the cache
as it is and writes no text. How it ends is decided by the bare name of its document, whose directory
is looked up first: with a path for the bare name the export is skipped, and without one it fails for
the reason that the bare name has none.

## Main definitions

* `Document.endUnlocated` — how an export ends whose artifact has no path

## Main results

* `Exporter.run_prepare_of_unlocated` — such an export, on any cache
* `Session.exists_ready_or_over_of_unlocated` — such an export among others
* `Session.skipped_iff_of_unlocated` — what the report says of it
-/

namespace SchemaArtifacts

open Cache

/-- How the export of a document ends if its artifact has no path. -/
def Document.endUnlocated (root : AbsolutePath) (d : Document) : Except Failure ExportStatus :=
  (d.name.locateBelow root).map fun _ => .skipped

variable {c : Cache} {doc : Document} {format : Format} {out : String} {err : NameError}

theorem Document.startBelow_of_outName (root : AbsolutePath)
    (hout : format.outName doc.name = .ok out) :
    doc.startBelow root format = (doc.name.locateBelow root).map fun _ => out := by
  unfold startBelow homeBelow
  rw [hout]
  cases doc.name.locateBelow root <;> rfl

/-- An export whose artifact has no path changes nothing in the cache and writes no text. -/
theorem Exporter.run_prepare_of_unlocated {e : Exporter} (h : e.StandsFor c.root doc)
    (hout : e.format.outName doc.name = .ok out) (hpath : c.locate out = .error err)
    (hunsupported : err.isUnsupported) :
    ∃ e', (prepare Cache.shelf).run (c, e) = (doc.endUnlocated c.root, (c, e')) ∧
      e'.renders = e.renders := by
  obtain ⟨_, hrun, -, ⟨home, rfl⟩⟩ := run_start h
  have hasked : (Cache.shelf.isCached out).run c = (.ok none, c) := by
    simp only [Cache.shelf, Act.run_bind, Act.run_get,
      isCached_eq_none_iff.2 ⟨err, hpath, hunsupported⟩, Act.run_ofExcept_ok]
  refine ⟨{ e with home }, ?_, rfl⟩
  rw [prepare, Act.run_bind, hrun, Document.startBelow_of_outName c.root hout, Document.endUnlocated]
  cases doc.name.locateBelow c.root with
  | error e => rfl
  | ok path =>
    simp only [Except.map, Act.run_bind, onShelf, Act.run_onPart, hasked, finish, Act.run_pure]

/-- A delivery whose artifact has no path ends with its first step. -/
theorem Delivery.Stage.next_of_unlocated (hout : format.outName doc.name = .ok out)
    (hpath : c.locate out = .error err) (hunsupported : err.isUnsupported) :
    Stage.next doc format c .ready = (c, .ended (doc.endUnlocated c.root)) := by
  simp only [Stage.next, Document.startBelow_of_outName c.root hout, Document.endUnlocated]
  cases doc.name.locateBelow c.root with
  | error e => rfl
  | ok path => simp only [Except.map, look, hpath, if_pos hunsupported]

namespace Session

variable {s : Session} {i : Nat} {d : Delivery}

/-- Among others, an export whose artifact has no path has not begun, or has ended in its one way. -/
theorem exists_ready_or_over_of_unlocated (hd : s.deliveries[i]? = some d)
    (hbrings : d.Brings s.cache.root doc format) (hout : format.outName doc.name = .ok out)
    (hpath : Name.locate s.cache.root out = .error err) (hunsupported : err.isUnsupported)
    (hstage : d.stage = .ready ∨ d.stage = .ended (doc.endUnlocated s.cache.root))
    {moves : List Move} (hkept : .abandon i ∉ moves) :
    ∃ d', (s.playAll moves).deliveries[i]? = some d' ∧ d'.exporter.doc = some doc ∧
      (d'.stage = .ready ∨ d'.stage = .ended (doc.endUnlocated s.cache.root)) := by
  induction moves generalizing s d with
  | nil => exact ⟨d, hd, hbrings.standsFor.doc, hstage⟩
  | cons m moves ih =>
    have hroot := (operation_play s m).sameWorld.root
    have hm : m ≠ .abandon i := fun heq => hkept (by simp [heq])
    obtain ⟨d', hd', hcases⟩ := exists_delivery_play m hd
    rw [playAll_cons, ← hroot]
    rw [← hroot] at hpath
    refine ih hd' ?_ hpath ?_ fun hmem => hkept (List.mem_cons_of_mem m hmem)
    · rw [hroot]
      rcases hcases with rfl | rfl | ⟨habandon, -⟩
      · exact hbrings
      · obtain ⟨e, hstep, hbrings'⟩ := Delivery.step_of_brings hbrings
        rwa [hstep]
      · exact absurd habandon hm
    · rw [hroot] at hpath ⊢
      rcases hcases with rfl | rfl | ⟨habandon, -⟩
      · exact hstage
      · obtain ⟨e, hstep, -⟩ := Delivery.step_of_brings hbrings
        have hnext := Delivery.Stage.next_of_unlocated hout hpath hunsupported
        rcases hstage with hready | hended
        · rw [hstep, hready, hnext]
          exact Or.inr rfl
        · rw [Delivery.step_of_ended hended]
          exact Or.inr hended
      · exact absurd habandon hm

/-- An artifact without a path is no trouble to the cache, whatever its state: the export leaves the
cache as it is, writes no text, and is skipped exactly if the bare name of the document has a path;
otherwise it fails for the reason that the bare name has none. In a session of documents with
different names, the report lists the name as skipped in the first case and as failed in the second,
once the export has ended, and it can end in no other way. -/
theorem skipped_iff_of_unlocated (hout : format.outName doc.name = .ok out)
    (hpath : c.locate out = .error err) (hunsupported : err.isUnsupported) :
    (∀ e : Exporter, e.StandsFor c.root doc → e.format = format →
      ∃ e', (Exporter.prepare Cache.shelf).run (c, e) =
          ((doc.name.locateBelow c.root).map fun _ => .skipped, (c, e')) ∧
        e'.renders = e.renders) ∧
    ∀ (limit : Nat) (docs : List Document) (moves : List Move) (i : Nat),
      (docs.map fun d => d.name).Nodup → docs[i]? = some doc → .abandon i ∉ moves →
      (∃ d, ((ofDocuments c format limit docs).playAll moves).deliveries[i]? = some d ∧
        (d.stage = .ready ∨
          d.result? = some ((doc.name.locateBelow c.root).map fun _ => .skipped))) ∧
      (i ∈ ((ofDocuments c format limit docs).playAll moves).ended →
        (doc.name ∈ ((ofDocuments c format limit docs).playAll moves).report.skipped ↔
          ∃ path, doc.name.locateBelow c.root = .ok path) ∧
        (doc.name ∈ ((ofDocuments c format limit docs).playAll moves).report.failed.map Prod.fst ↔
          ∃ e, doc.name.locateBelow c.root = .error e)) := by
  constructor
  · rintro e hfor rfl
    exact Exporter.run_prepare_of_unlocated hfor hout hpath hunsupported
  · intro limit docs moves i hnames hdoc hkept
    have hbegan : (ofDocuments c format limit docs).deliveries[i]? =
        some { exporter := { doc := some doc, format } } := by
      simp [ofDocuments, hdoc]
    have hbrings : Delivery.Brings { exporter := { doc := some doc, format } } c.root doc format :=
      ⟨⟨rfl, fun _ hdir => by cases hdir⟩, rfl⟩
    obtain ⟨d, hd, hbrings, hstage⟩ := exists_ready_or_over_of_unlocated hbegan hbrings hout hpath
      hunsupported (Or.inl rfl) hkept
    refine ⟨⟨d, hd, hstage.imp_right fun hover => by rw [Delivery.result?, hover]; rfl⟩, ?_⟩
    intro hended
    have hends : ((ofDocuments c format limit docs).playAll moves).Ends i doc
        (doc.endUnlocated c.root) := by
      obtain ⟨d', result, hd', hresult⟩ :=
        (isNoted_playAll (isNoted_ofDocuments c format limit docs) moves i).1 hended
      cases hd.symm.trans hd'
      refine ⟨d, hd, hbrings, ?_⟩
      rcases hstage with hready | hover
      · rw [Delivery.stage_of_result? hresult] at hready
        cases hready
      · rw [Delivery.result?, hover]
        rfl
    obtain ⟨text, htext, -⟩ := Format.outName_eq_ok_iff.1 hout
    have hskipped : doc.name ∈ Report.listed _ .skipped ↔ _ := hends.mem_listed_iff hnames
    have hfailed := hends.mem_failed_iff hnames htext
    rw [Document.endUnlocated] at hskipped hfailed
    cases hlocate : doc.name.locateBelow c.root with
    | error e =>
      rw [hlocate] at hskipped hfailed
      exact ⟨hskipped.trans (by simp [Except.map]), hfailed.trans (by simp [Except.map])⟩
    | ok path =>
      rw [hlocate] at hskipped hfailed
      exact ⟨hskipped.trans (by simp [Except.map]), hfailed.trans (by simp [Except.map])⟩

/-- The name of the artifact of `http://e.org/a?` has a query and that of `ftp://e.org/b` no web
scheme. The first bare name has a path and the second has none, so one is skipped and the other
fails. -/
theorem skipped_iff_of_unlocated_query : ∃ (c : Cache) (a b : Document) (s : Session),
    (ofDocuments c .typeScript 20 [a, b]).Leads s ∧ c.isCached "http://e.org/a?.d.ts" = .ok none ∧
      c.isCached "ftp://e.org/b.d.ts" = .ok none ∧ a.name ∈ s.report.skipped ∧
      a.name ∉ s.report.failed.map Prod.fst ∧ b.name ∉ s.report.skipped ∧
      b.name ∈ s.report.failed.map Prod.fst := by
  let c : Cache := { root := { parts := ["c"] } }
  let a : Document := { name := .string "http://e.org/a?" }
  let b : Document := { name := .string "ftp://e.org/b" }
  let moves : List Move := [.start, .start]
  have hout : Format.typeScript.outName a.name = .ok "http://e.org/a?.d.ts" := rfl
  have hout' : Format.typeScript.outName b.name = .ok "ftp://e.org/b.d.ts" := rfl
  have hasked : c.isCached "http://e.org/a?.d.ts" = .ok none := by decide +kernel
  have hasked' : c.isCached "ftp://e.org/b.d.ts" = .ok none := by decide +kernel
  obtain ⟨err, hpath, hunsupported⟩ := isCached_eq_none_iff.1 hasked
  obtain ⟨err', hpath', hunsupported'⟩ := isCached_eq_none_iff.1 hasked'
  have hnames : ([a, b].map fun d => d.name).Nodup := by
    simp [a, b]
  have hended : ((ofDocuments c .typeScript 20 [a, b]).playAll moves).ended = [0, 1] := by
    decide +kernel
  obtain ⟨ha, ha'⟩ := ((skipped_iff_of_unlocated hout hpath hunsupported).2 20 [a, b] moves 0
    hnames rfl (by decide)).2 (by simp [hended])
  obtain ⟨hb, hb'⟩ := ((skipped_iff_of_unlocated hout' hpath' hunsupported').2 20 [a, b] moves 1
    hnames rfl (by decide)).2 (by simp [hended])
  have hbare : (a.name.locateBelow c.root).toOption.isSome := by decide +kernel
  have hbare' : (b.name.locateBelow c.root).toOption = none := by decide +kernel
  refine ⟨c, a, b, _, ⟨moves, rfl⟩, hasked, hasked', ?_⟩
  cases hlocate : a.name.locateBelow c.root with
  | error e => simp [hlocate, Except.toOption] at hbare
  | ok path =>
    cases hlocate' : b.name.locateBelow c.root with
    | ok path' => simp [hlocate', Except.toOption] at hbare'
    | error e =>
      rw [hlocate] at ha ha'
      rw [hlocate'] at hb hb'
      refine ⟨ha.2 ⟨path, rfl⟩, fun hfailed => ?_, fun hskipped => ?_, hb'.2 ⟨e, rfl⟩⟩
      · obtain ⟨_, heq⟩ := ha'.1 hfailed
        cases heq
      · obtain ⟨_, heq⟩ := hb.1 hskipped
        cases heq

end Session
end SchemaArtifacts
