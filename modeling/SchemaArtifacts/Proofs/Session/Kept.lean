import Mathlib.Data.List.Permutation
import SchemaArtifacts.Proofs.Model.Names
import SchemaArtifacts.Proofs.Session.Alone
import SchemaArtifacts.Proofs.Session.Finish
import SchemaArtifacts.Proofs.Session.InTurn
import SchemaArtifacts.Proofs.Session.Report

/-!
# What a report promises

Documents are exported one after the other, from nothing below the root. Then the text of each
document that the report lists as written is the content of the file at the path of its artifact. A
document that is listed as cached has the artifact of another, of a name with the same path, that is
listed as written, unless the path is that of a directory on the way to a further artifact.

Different names may have the same path: the artifacts of `urn:a` and of `/urn:a` both lie at
`urn/a.d.ts`, and the later of the two documents is listed as cached and has no file of its own.

## Main definitions

* `Document.IsKept` — the file at the path of its artifact holds the text of a document
* `Document.IsUnrivalled` — no other document comes to the path of its artifact
* `Report.IsBorneOut` — the files hold what the report promises

## Main results

* `Session.inTurn_playAll` — deliveries take turns, whatever the course of orderly moves
* `Session.report_borne_out` — the report of an export is borne out by the files
-/

namespace SchemaArtifacts

open Cache Disk

/-- The file at the path of the artifact of a document holds its text. -/
def Document.IsKept (root : AbsolutePath) (format : Format) (d : Disk) (doc : Document) : Prop :=
  ∃ out path content, doc.HasArtifact root format out path ∧
    doc.textBelow root format = .ok content ∧ d.content? path = some content

/-- Of these documents, no other has its artifact at the same path, and none has it below. -/
def Document.IsUnrivalled (root : AbsolutePath) (format : Format) (docs : List Document)
    (doc : Document) : Prop :=
  ∀ out path, doc.HasArtifact root format out path → ∀ other ∈ docs, ∀ out' path',
    other.HasArtifact root format out' path' →
      (path' = path → other = doc) ∧ ¬ path.IsAbove path'.parent

/-- The files hold what a report on documents promises. -/
structure Report.IsBorneOut (r : Report) (root : AbsolutePath) (format : Format)
    (docs : List Document) (d : Disk) : Prop where
  written : ∀ doc ∈ docs, doc.name ∈ r.written → doc.IsKept root format d
  /-- The artifact that was found is that of a document of the report, if it is not a directory on
  the way to one. -/
  cached : ∀ doc ∈ docs, doc.name ∈ r.cached →
    ∃ out path, doc.HasArtifact root format out path ∧
      ((∀ other ∈ docs, ∀ out' path', other.HasArtifact root format out' path' →
        ¬ path.IsAbove path'.parent) →
      ∃ writer ∈ docs, writer.name ∈ r.written ∧ writer.IsKept root format d ∧
        ∃ out', writer.HasArtifact root format out' path)
  own : ∀ doc ∈ docs, doc.name ∈ r.written ∨ doc.name ∈ r.cached →
    doc.IsUnrivalled root format docs → doc.IsKept root format d

/-- Where each text names one document at most, a document with an artifact is told by its name. -/
theorem Document.HasArtifact.eq_of_name_eq {root path : AbsolutePath} {format : Format}
    {docs : List Document} {doc doc' : Document} {out : String}
    (h : doc.HasArtifact root format out path) (hnames : (Schema.texts docs).Nodup)
    (hdoc : doc ∈ docs) (hdoc' : doc' ∈ docs) (hname : doc.name = doc'.name) : doc = doc' := by
  obtain ⟨text, _, _, htext, -⟩ := h.reads
  exact Schema.eq_of_name_eq hnames hdoc' hdoc (hname.symm.trans htext) htext

namespace Delivery

variable {c : Cache} {doc : Document} {format : Format} {occupied : AbsolutePath → Prop}

/-- Who has written an artifact on its own has its text there. -/
theorem Stage.IsOwn.isKept (h : (Stage.ended (.ok .written)).IsOwn c doc format occupied)
    (hs : c.Steady) : doc.IsKept c.root format c.disk := by
  cases h with
  | written out id job artifact text there done =>
    exact ⟨out, job.path, job.content, artifact, text, hs.done id job there done⟩
  | ended result notWritten => exact absurd rfl notWritten

/-- Who has found an artifact has found its path occupied. -/
theorem Stage.IsOwn.exists_occupied (h : (Stage.ended (.ok .cached)).IsOwn c doc format occupied) :
    ∃ out path, doc.HasArtifact c.root format out path ∧ occupied path := by
  cases h with
  | cached out path artifact found => exact ⟨out, path, artifact, found⟩
  | ended result _ notCached => exact absurd rfl notCached

end Delivery

namespace Session

variable {c : Cache} {format : Format} {docs : List Document} {base : AbsolutePath}
  {top names site : List String} {s : Session} {doc : Document}

/-! ## Deliveries take turns -/

/-- Before anything has happened, deliveries take turns. -/
theorem inTurn_ofDocuments (hfresh : c.IsFresh) (hvacant : IsVacant c.disk base top names)
    (limit : Nat) : InTurn (docs.map fun doc => (doc, format)) (top ++ names) c
      (ofDocuments c format limit docs).deliveries := by
  have hready : ∀ (i : Nat) (d : Delivery),
      (ofDocuments c format limit docs).deliveries[i]? = some d → d.stage = .ready := by
    intro i d hd
    obtain ⟨doc, -, rfl⟩ := List.mem_map.1 (List.mem_of_getElem? hd)
    rfl
  refine ⟨?_, ?_, ?_, ?_, ?_⟩
  · intro i j d e hd _ hunder
    simp [Delivery.isUnderWay, hready i d hd] at hunder
  · intro id job hj
    simp [hfresh.jobs] at hj
  · simp [hfresh.jobs]
  · intro below hne hthere
    rw [List.append_assoc] at hthere
    exact absurd (hvacant.get?_eq_none (List.append_ne_nil_of_right_ne_nil names hne)) hthere
  · intro i d order hd _
    rw [hready i d hd]
    exact .ready

/-- Deliveries take turns, whatever the course of orderly moves. -/
theorem inTurn_playAll {d₀ : Disk} {orders : List (Document × Format)}
    (h : InTurn orders (top ++ names) s.cache s.deliveries) (hs : s.IsSteady orders)
    (hvacant : IsVacant d₀ base top names) (hk : Keeps d₀ s.cache.disk)
    (hroot : s.cache.root = base.join names) (hlimit : s.limit = 1) {moves : List Move}
    (horderly : ∀ m ∈ moves, m.isOrderly) :
    InTurn orders (top ++ names) (s.playAll moves).cache (s.playAll moves).deliveries ∧
      (s.playAll moves).IsSteady orders := by
  induction moves generalizing s with
  | nil => exact ⟨h, hs⟩
  | cons m moves ih =>
    have hm := horderly m List.mem_cons_self
    have hkeeps := (ahead_or_isTaken_turn hs (turn_play hs.runs hm)).1
    have hroot' := (operation_play s m).sameWorld.root
    exact ih (h.play hs hvacant hk hroot hlimit hm) (hs.move hm) (hk.trans hkeeps)
      (hroot'.trans hroot) ((limit_play s m).trans hlimit)
      fun m hm => horderly m (List.mem_cons_of_mem _ hm)

/-! ## Reports are borne out -/

/-- A document that was written is listed so, and has its text there. -/
theorem Wrote.exists_writer {path : AbsolutePath}
    (h : Wrote s.cache.root (docs.map fun doc => (doc, format)) s.deliveries path)
    (hs : s.IsSteady (docs.map fun doc => (doc, format)))
    (hturn : InTurn (docs.map fun doc => (doc, format)) site s.cache s.deliveries)
    (hnoted : s.IsNoted) :
    ∃ writer ∈ docs, writer.name ∈ s.report.written ∧
      writer.IsKept s.cache.root format s.cache.disk ∧
      ∃ out, writer.HasArtifact s.cache.root format out path := by
  obtain ⟨i, d, order, out, hd, horder, hstage, hartifact⟩ := h
  have hown := hturn.own i d order hd horder
  have hfor := (hs.runs.brings i d order hd horder).standsFor
  obtain ⟨writer, hwriter, rfl⟩ := List.mem_map.1 (List.mem_of_getElem? horder)
  rw [hstage] at hown
  refine ⟨writer, hwriter, ?_, hown.isKept hs.steady, out, hartifact⟩
  have hends : s.Ends i writer (.ok .written) := ⟨d, hd, hfor.doc, by rw [Delivery.result?, hstage]⟩
  have hlisted : writer.name ∈ s.report.listed .written :=
    (mem_listed_report_iff hnoted).2 ⟨i, writer, _, hends, rfl, rfl⟩
  exact hlisted

/-- A name that is listed as written or as cached is that of a document with such an end. -/
theorem exists_isOwn_of_listed {status : ExportStatus}
    (hstatus : status = .written ∨ status = .cached)
    (hs : s.IsSteady (docs.map fun doc => (doc, format)))
    (hturn : InTurn (docs.map fun doc => (doc, format)) site s.cache s.deliveries)
    (hnoted : s.IsNoted) (hlisted : doc.name ∈ s.report.listed status) :
    ∃ doc' ∈ docs, doc'.name = doc.name ∧
      (Delivery.Stage.ended (.ok status)).IsOwn s.cache doc' format
        (IsOccupied s.cache.root (docs.map fun doc => (doc, format)) s.deliveries) := by
  obtain ⟨i, doc', status', ⟨d, hd, hdoc, hresult⟩, hname, hshown⟩ :=
    (mem_listed_report_iff hnoted).1 hlisted
  obtain rfl : status' = status := by
    rcases hstatus with rfl | rfl <;> cases status' <;> first | rfl | cases hshown
  obtain ⟨order, horder⟩ := hs.runs.exists_order hd
  have hown := hturn.own i d order hd horder
  have hfor := (hs.runs.brings i d order hd horder).standsFor
  obtain ⟨doc'', hmem, rfl⟩ := List.mem_map.1 (List.mem_of_getElem? horder)
  obtain rfl : doc'' = doc' := Option.some.inj (hfor.doc.symm.trans hdoc)
  rw [Delivery.stage_of_result? hresult] at hown
  exact ⟨doc'', hmem, hname, hown⟩


/-- What a session reports is borne out, if its deliveries take turns. -/
theorem isBorneOut_report (hs : s.IsSteady (docs.map fun doc => (doc, format)))
    (hturn : InTurn (docs.map fun doc => (doc, format)) site s.cache s.deliveries)
    (hnoted : s.IsNoted) (hnames : (Schema.texts docs).Nodup) :
    s.report.IsBorneOut s.cache.root format docs s.cache.disk := by
  have hwritten : ∀ doc ∈ docs, doc.name ∈ s.report.written →
      doc.IsKept s.cache.root format s.cache.disk := by
    intro doc hdoc (hlisted : doc.name ∈ s.report.listed .written)
    obtain ⟨doc', hdoc', hname, hown⟩ :=
      exists_isOwn_of_listed (Or.inl rfl) hs hturn hnoted hlisted
    have hkept := hown.isKept hs.steady
    have ⟨out, path, content, hartifact, _⟩ := hkept
    rwa [← hartifact.eq_of_name_eq hnames hdoc' hdoc hname]
  have hcached : ∀ doc ∈ docs, doc.name ∈ s.report.cached →
      ∃ out path, doc.HasArtifact s.cache.root format out path ∧
        ((∀ other ∈ docs, ∀ out' path', other.HasArtifact s.cache.root format out' path' →
          ¬ path.IsAbove path'.parent) →
        ∃ writer ∈ docs, writer.name ∈ s.report.written ∧
          writer.IsKept s.cache.root format s.cache.disk ∧
          ∃ out', writer.HasArtifact s.cache.root format out' path) := by
    intro doc hdoc (hlisted : doc.name ∈ s.report.listed .cached)
    obtain ⟨doc', hdoc', hname, hown⟩ :=
      exists_isOwn_of_listed (Or.inr rfl) hs hturn hnoted hlisted
    obtain ⟨out, path, hartifact, hoccupied⟩ := hown.exists_occupied
    obtain rfl := hartifact.eq_of_name_eq hnames hdoc' hdoc hname
    refine ⟨out, path, hartifact, fun hclear => ?_⟩
    rcases hoccupied with hwrote | ⟨order, horder, out', path', hbelow, habove⟩
    · exact hwrote.exists_writer hs hturn hnoted
    · obtain ⟨other, hother, rfl⟩ := List.mem_map.1 horder
      exact absurd habove (hclear other hother out' path' hbelow)
  refine ⟨hwritten, hcached, ?_⟩
  -- Without rivals, the document whose artifact was found is the document itself.
  rintro doc hdoc (hlisted | hlisted) hunrivalled
  · exact hwritten doc hdoc hlisted
  · obtain ⟨out, path, hartifact, hfound⟩ := hcached doc hdoc hlisted
    have hrivals := hunrivalled out path hartifact
    obtain ⟨writer, hwriter, -, hkept, out', hartifact'⟩ :=
      hfound fun other hother out' path' hbelow => (hrivals other hother out' path' hbelow).2
    obtain rfl := (hrivals writer hwriter out' path hartifact').1 rfl
    exact hkept

/-- The report of an export of documents one after the other, from a fresh cache with nothing below its
root, is borne out by the files: that of a whole export of a schema, and that of a session after any
course of orderly moves, whatever the writes meet with. -/
theorem report_borne_out {c : Cache} (hfresh : c.IsFresh) (hvacant : IsVacant c.disk base top names)
    (hroot : c.root = base.join names) {format : Format}
    (hformat : format = .typeScript ∨ format = .javaScript) {schema : Schema}
    (hschema : schema.IsKeyed) {roots : Json} {docs : List Document}
    (hdocs : schema.collect roots = .ok docs) :
    (∀ moves : List Move, (∀ m ∈ moves, m.isOrderly) →
      ((ofDocuments c format 1 docs).playAll moves).report.IsBorneOut c.root format docs
        ((ofDocuments c format 1 docs).playAll moves).cache.disk) ∧
    ∀ (request : ExportRequest) (report : Report) (c' : Cache), request.roots = roots →
      request.concurrency = 1 → Format.ofLabel request.format = .ok format →
      (exportAll request schema).run c = (.ok report, c') →
      report.IsBorneOut c.root format docs c'.disk := by
  have hmoves : ∀ moves : List Move, (∀ m ∈ moves, m.isOrderly) →
      ((ofDocuments c format 1 docs).playAll moves).report.IsBorneOut c.root format docs
        ((ofDocuments c format 1 docs).playAll moves).cache.disk := by
    intro moves horderly
    have hfree : IsFreeBelow c.disk c.root := by
      rw [hroot]
      exact hvacant.isFreeBelow
    have hsteady := isSteady_ofDocuments_of_isFreeBelow hfresh hfree hformat 1 docs
    obtain ⟨hturn, hs⟩ := inTurn_playAll (inTurn_ofDocuments hfresh hvacant 1) hsteady hvacant
      (.refl c.disk) hroot rfl horderly
    have hnoted := isNoted_playAll (isNoted_ofDocuments c format 1 docs) moves
    have hsame : ((ofDocuments c format 1 docs).playAll moves).cache.root = c.root :=
      (sameWorld_playAll (ofDocuments c format 1 docs) moves).root
    rw [← hsame]
    exact isBorneOut_report hs hturn hnoted (hschema.nodup_collect hdocs)
  refine ⟨hmoves, ?_⟩
  rintro request report c' rfl hone hlabel hrun
  obtain ⟨docs', hdocs', hcases⟩ := exists_of_run_exportAll hrun
  obtain rfl : docs' = docs := Except.ok.inj (hdocs'.symm.trans hdocs)
  rcases hcases with ⟨rfl, rfl⟩ | ⟨format', elapsed, hlabel', rfl, rfl⟩
  · exact ⟨by simp, by simp, by simp⟩
  · obtain rfl : format' = format := Except.ok.inj (hlabel'.symm.trans hlabel)
    obtain ⟨moves, horderly, hfinish⟩ :=
      leadsOrderly_finish (s := ofDocuments c format' request.concurrency.toNat docs') rfl
    have hkept := hmoves moves horderly
    rw [hone] at hfinish ⊢
    have hdone : (ofDocuments c format' 1 docs').playAll moves =
        (ofDocuments c format' 1 docs').finish := hfinish
    rw [hdone] at hkept
    exact ⟨hkept.written, hkept.cached, hkept.own⟩

/-- Of two documents that share the path of their artifact, the first is listed as written and the other
as cached; a third document is written beside them. -/
theorem report_borne_out_shared : ∃ (c : Cache) (schema : Schema) (docs : List Document)
    (request : ExportRequest) (report : Report) (c' : Cache), c.IsFresh ∧
      IsVacant c.disk {} [] ["c"] ∧ c.root = AbsolutePath.join {} ["c"] ∧ schema.IsKeyed ∧
      schema.collect request.roots = .ok docs ∧ request.concurrency = 1 ∧
      Format.ofLabel request.format = .ok .typeScript ∧
      (exportAll request schema).run c = (.ok report, c') ∧
      report.written.map Json.text? = [some "/urn:a", some "b"] ∧
      report.cached.map Json.text? = [some "urn:a"] ∧
      report.IsBorneOut c.root .typeScript docs c'.disk := by
  let c : Cache := { root := { parts := ["c"] } }
  let x : Document := { name := .string "urn:a", declarations := [{ name := .string "X" }] }
  let y : Document := { name := .string "/urn:a", declarations := [{ name := .string "Y" }] }
  let z : Document := { name := .string "b" }
  let schema : Schema := { documents := [(x.name, x), (y.name, y), (z.name, z)] }
  let request : ExportRequest :=
    { concurrency := 1, roots := .list [.string "/urn:a", .string "urn:a", .string "b"] }
  have hvacant : IsVacant c.disk {} [] ["c"] :=
    isVacant_empty (List.forall_mem_singleton.2 ⟨by decide, by decide, by decide⟩)
  have hschema : schema.IsKeyed := ⟨by simp [schema], by decide⟩
  have hdocs : schema.collect request.roots = .ok [y, x, z] := by cbv
  have hran : ((exportAll request schema).run c).1.toOption.map (fun r =>
      (r.written.map Json.text?, r.cached.map Json.text?)) =
        some ([some "/urn:a", some "b"], [some "urn:a"]) := by decide +kernel
  obtain ⟨report, c', hrun, hlists⟩ := Act.exists_of_map_run hran
  obtain ⟨hwritten, hcached⟩ := Prod.mk.inj hlists
  have hfresh : c.IsFresh := ⟨rfl, rfl, rfl, rfl⟩
  have hborne := (report_borne_out hfresh hvacant rfl (Or.inl rfl) hschema hdocs).2
    request report c' rfl rfl rfl hrun
  exact ⟨c, schema, [y, x, z], request, report, c', hfresh, hvacant, rfl, hschema, hdocs, rfl, rfl, hrun,
    hwritten, hcached, hborne⟩

/-- Documents of different names may share the path of their artifact: the later one is listed as
cached, and the text of the earlier one is there. -/
theorem not_isKept_of_shared : ¬ ∀ (c : Cache) (base : AbsolutePath) (top names : List String)
    (schema : Schema) (docs : List Document) (request : ExportRequest) (report : Report)
    (c' : Cache), c.IsFresh → IsVacant c.disk base top names → c.root = base.join names →
    (∀ tries path moment, c.faults tries path moment = none) → schema.IsKeyed →
    schema.collect request.roots = .ok docs → request.concurrency = 1 →
    Format.ofLabel request.format = .ok .typeScript →
    (exportAll request schema).run c = (.ok report, c') →
    ∀ doc ∈ docs, doc.name ∈ report.written ∨ doc.name ∈ report.cached →
      doc.IsKept c.root .typeScript c'.disk := by
  intro h
  let c : Cache := { root := { parts := ["c"] } }
  let x : Document := { name := .string "urn:a", declarations := [{ name := .string "X" }] }
  let y : Document := { name := .string "/urn:a", declarations := [{ name := .string "Y" }] }
  let path : AbsolutePath := { parts := ["c", "urn", "a.d.ts"] }
  let schema : Schema := { documents := [(x.name, x), (y.name, y)] }
  let request : ExportRequest :=
    { concurrency := 1, roots := .list [.string "/urn:a", .string "urn:a"] }
  have hvacant : IsVacant c.disk {} [] ["c"] :=
    isVacant_empty (List.forall_mem_singleton.2 ⟨by decide, by decide, by decide⟩)
  have hschema : schema.IsKeyed := ⟨by simp [schema], by decide⟩
  have hdocs : schema.collect request.roots = .ok [y, x] := by cbv
  have hran : ((exportAll request schema).run c).1.toOption.map (fun r =>
      r.cached.map Json.text?) = some [some "urn:a"] := by decide +kernel
  have hthere : ((exportAll request schema).run c).2.disk.content? path =
      some "export interface Y {}\n" := by decide +kernel
  have hpath : x.artifact? c.root .typeScript = some path := by decide +kernel
  have htext : (x.textBelow c.root .typeScript).toOption = some "export interface X {}\n" := by
    decide +kernel
  obtain ⟨report, c', hrun, hlist⟩ := Act.exists_of_map_run hran
  have hcached : x.name ∈ report.cached := by
    obtain ⟨a, hlist, hname⟩ := List.map_eq_singleton_iff.1 hlist
    rw [hlist, Json.eq_string_of_text? hname]
    exact List.mem_singleton_self _
  obtain ⟨out, path', content, hartifact, hcontent, hfile⟩ :=
    h c {} [] ["c"] schema [y, x] request report c' ⟨rfl, rfl, rfl, rfl⟩ hvacant rfl
      (fun _ _ _ => rfl) hschema hdocs rfl rfl hrun x (by simp) (Or.inr hcached)
  rw [hrun] at hthere
  obtain rfl : path = path' := Option.some.inj (hpath.symm.trans hartifact.artifact?)
  rw [hcontent] at htext
  have hsame := (Option.some.inj htext).symm.trans (Option.some.inj (hfile.symm.trans hthere))
  exact absurd hsame (by decide)

end Session
end SchemaArtifacts
