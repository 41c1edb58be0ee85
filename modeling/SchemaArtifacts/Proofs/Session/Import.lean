import SchemaArtifacts.Proofs.Model.Description
import SchemaArtifacts.Proofs.Session.Course

/-!
# Imports between written artifacts

The artifacts of a session import each other by relative paths. When two documents were written and
one imports the other, the import line is there, and following it from the directory of the one
artifact, with the suffix behind, leads to the other artifact exactly under three conditions on the
two names. They hold for paths and web URLs that are no directories of each other's modules. They
fail for a URI that ends in a separator, and for a name below another's path with the marker.

## Main definitions

* `Session.HasWritten` — an export of a document has ended with its artifact written

## Main results

* `Session.import_leads_iff` — when an import leads to the written artifact
-/

namespace SchemaArtifacts

open SchemaArtifacts.Path

namespace Document

variable {root : AbsolutePath} {format : Format} {doc : Document}

/-- A document that has a text has a line for each of its imports. -/
theorem exists_line_of_textBelow {content alias_ : String} {full : Json}
    (h : doc.textBelow root format = .ok content) (himport : (alias_, full) ∈ doc.foreignImports) :
    ∃ lines spec, doc.headerBelow root format = .ok lines ∧
      doc.specifierBelow root full = .ok spec ∧ format.importLine alias_ spec full ∈ lines := by
  obtain ⟨_, lines, -, hlines, -⟩ := textBelow_eq_ok_iff.1 h
  obtain ⟨line, hmem, hline⟩ := exists_of_mem_forall₂ (mapM_eq_ok_iff.1 hlines).flip himport
  obtain ⟨spec, hspec, hline⟩ := Result.bind_eq_ok.1 hline
  obtain rfl : format.importLine alias_ spec full = line := Except.ok.inj hline
  exact ⟨lines, spec, hlines, hspec, hmem⟩

end Document

namespace Session

/-- An export of a document has ended with its artifact written. -/
def HasWritten (s : Session) (doc : Document) : Prop :=
  ∃ d ∈ s.deliveries, d.exporter.doc = some doc ∧ d.result? = some (.ok .written)

/-- What is known of a document whose artifact was written. -/
theorem HasWritten.exists_artifact {c : Cache} (fresh : c.IsFresh) {format : Format} {limit : Nat}
    {docs : List Document} {s : Session} (hs : (ofDocuments c format limit docs).Leads s)
    {doc : Document} (h : s.HasWritten doc) :
    ∃ out content, ∃ job ∈ s.cache.jobs, job.stage.isDone ∧
      doc.HasArtifact c.root format out job.path ∧ doc.textBelow c.root format = .ok content := by
  obtain ⟨moves, rfl⟩ := hs
  have hruns := runs_playAll (runs_ofDocuments fresh.balanced format limit docs) moves
  have hroot := (sameWorld_playAll (ofDocuments c format limit docs) moves).root
  generalize (ofDocuments c format limit docs).playAll moves = s at *
  obtain ⟨d, hmem, hdoc, hresult⟩ := h
  obtain ⟨i, hi⟩ := List.getElem?_of_mem hmem
  have hlt : i < (docs.map fun doc => (doc, format)).length := by
    rw [← hruns.length]
    exact (List.getElem?_eq_some_iff.1 hi).1
  have ho := List.getElem?_eq_getElem hlt
  have hbrings := hruns.brings i d _ hi ho
  have hsound := hruns.sound i d _ hi ho
  rw [List.getElem_map] at hbrings hsound
  cases hdoc.symm.trans hbrings.standsFor.doc
  rw [Delivery.stage_of_result? hresult] at hsound
  cases hsound with
  | written out content id job artifact text there done =>
    have hroot' : s.cache.root = c.root := hroot
    rw [hroot'] at artifact text
    exact ⟨out, content, job, List.mem_of_getElem? there, done, artifact, text⟩
  | ended _ other => exact absurd rfl other

theorem hasWritten_of_wroteAt {c : Cache} (fresh : c.IsFresh) {format : Format} {limit : Nat}
    {docs : List Document} {moves : List Move} (i : Nat) {doc : Document} (hi : docs[i]? = some doc)
    (h : ((ofDocuments c format limit docs).playAll moves).wroteAt i) :
    ((ofDocuments c format limit docs).playAll moves).HasWritten doc := by
  have hruns := runs_playAll (runs_ofDocuments fresh.balanced format limit docs) moves
  obtain ⟨d, hd, hresult⟩ := exists_of_wroteAt h
  have horder : (docs.map fun doc => (doc, format))[i]? = some (doc, format) := by
    rw [List.getElem?_map, hi]
    rfl
  exact ⟨d, List.mem_of_getElem? hd, (hruns.brings i d _ hd horder).standsFor.doc, hresult⟩

/-- When two documents were written and one imports the other, the import line is in its header, and
the path in that line, followed from the directory of the importer's artifact and with the suffix
behind, leads to the other artifact exactly if the import lands. When the importer's name loses no
line feed, it lands exactly if both names keep their suffix and the target with the marker is no
directory of the importer. -/
theorem import_leads_iff {c : Cache} (fresh : c.IsFresh) {format : Format}
    (hformat : format = .typeScript ∨ format = .javaScript) {limit : Nat} {docs : List Document}
    {s : Session} (hs : (ofDocuments c format limit docs).Leads s) {importer target : Document}
    (himporter : s.HasWritten importer) (htarget : s.HasWritten target) {alias_ : String}
    (himport : (alias_, target.name) ∈ importer.foreignImports) :
    ∃ lines spec out out', ∃ job ∈ s.cache.jobs, ∃ job' ∈ s.cache.jobs,
      ∃ name name' bare artifact bare' artifact',
      importer.headerBelow c.root format = .ok lines ∧
      format.importLine alias_ spec target.name ∈ lines ∧
      job.stage.isDone ∧ importer.HasArtifact c.root format out job.path ∧
      job'.stage.isDone ∧ target.HasArtifact c.root format out' job'.path ∧
      importer.name = .string name ∧ Name.Reads format.suffix name bare artifact ∧
      target.name = .string name' ∧ Name.Reads format.suffix name' bare' artifact' ∧
      (suffixed format.suffix.toList (resolve (dirname job.path.toString.toList) spec.toList) =
          normal job'.path.toString.toList ↔
        Name.ImportLands (normal c.root.toString.toList) format.suffix name name') ∧
      (Name.losesLineFeed (Name.strip name) = false →
        (Name.ImportLands (normal c.root.toString.toList) format.suffix name name' ↔
          Name.keepsSuffix (Name.strip name) ∧ Name.keepsSuffix (Name.strip name') ∧
            ¬ suffixed marker bare' <+: bare.dropLast)) := by
  have hext : Name.IsExtension format.suffix.toList := by
    rcases hformat with rfl | rfl
    · exact Name.isExtension_typeScript
    · exact Name.isExtension_javaScript
  obtain ⟨out, content, job, hjob, hdone, hartifact, htext⟩ := himporter.exists_artifact fresh hs
  obtain ⟨out', _, job', hjob', hdone', hartifact', -⟩ := htarget.exists_artifact fresh hs
  obtain ⟨name, bare, artifact, hname, hreads, hpath, hplace⟩ := hartifact.reads
  obtain ⟨name', bare', artifact', hname', hreads', hpath', hplace'⟩ := hartifact'.reads
  obtain ⟨lines, spec, hlines, hspec, hline⟩ :=
    Document.exists_line_of_textBelow htext himport
  have hway : spec = String.ofList (moduleSpecifier
      (c.root.join (bare'.map String.ofList)).toString.toList
      (dirname (c.root.join (bare.map String.ofList)).toString.toList)) := by
    simp only [Document.specifierBelow, Document.homeBelow, hplace, hplace', Except.map, bind,
      Except.bind, String.toList_ofList] at hspec
    exact (Except.ok.inj hspec).symm
  refine ⟨lines, spec, out, out', job, hjob, job', hjob', name, name', bare, artifact, bare',
    artifact', hlines, hline, hdone, hartifact, hdone', hartifact', hname, hreads, hname', hreads',
    ?_, Name.importLands_iff hext hreads hreads'⟩
  rw [hway, hpath, hpath', String.toList_ofList]
  exact Name.import_lands_iff hext c.root hreads hreads'

/-- A name below another's path with the marker imports the other. Both artifacts are written, and the
path in the import line leads elsewhere. -/
theorem import_leads_iff_below_target : ∃ (c : Cache) (importer target : Document) (s : Session),
    (ofDocuments c .typeScript 2 [importer, target]).Leads s ∧
    s.HasWritten importer ∧ s.HasWritten target ∧
    ∃ lines spec out out', ∃ job ∈ s.cache.jobs, ∃ job' ∈ s.cache.jobs,
      importer.headerBelow c.root .typeScript = .ok lines ∧
      Format.typeScript.importLine "B" spec target.name ∈ lines ∧
      importer.HasArtifact c.root .typeScript out job.path ∧
      target.HasArtifact c.root .typeScript out' job'.path ∧
      suffixed Format.typeScript.suffix.toList
          (resolve (dirname job.path.toString.toList) spec.toList) ≠
        normal job'.path.toString.toList := by
  let c : Cache := { root := { parts := ["c"] } }
  let importer : Document :=
    { name := .string "b.js/a", imports := [(.string "B", .string "b")], used := ["B"] }
  let target : Document := { name := .string "b" }
  let moves : List Move := [.start, .start, .proceed 0, .proceed 0, .write 0, .write 0, .write 0,
    .write 0, .write 0, .settle 0, .proceed 0, .proceed 1, .proceed 1, .write 1, .write 1, .write 1,
    .write 1, .write 1, .settle 1, .proceed 1]
  have fresh : c.IsFresh := ⟨rfl, rfl, rfl, rfl⟩
  have himport : ("B", target.name) ∈ importer.foreignImports := by
    simp [importer, target, Namespace.foreignImports, Namespace.usedImports, Namespace.fullName?,
      Json.find?, Namespace.builtinAlias]
  have hs : (ofDocuments c .typeScript 2 [importer, target]).Leads
      ((ofDocuments c .typeScript 2 [importer, target]).playAll moves) := ⟨moves, rfl⟩
  have himporter : ((ofDocuments c .typeScript 2 [importer, target]).playAll moves).HasWritten
      importer := hasWritten_of_wroteAt fresh 0 rfl (by decide +kernel)
  have htarget : ((ofDocuments c .typeScript 2 [importer, target]).playAll moves).HasWritten
      target := hasWritten_of_wroteAt fresh 1 rfl (by decide +kernel)
  refine ⟨c, importer, target, _, hs, himporter, htarget, ?_⟩
  obtain ⟨lines, spec, out, out', job, hjob, job', hjob', name, name', bare, artifact, bare',
    artifact', hlines, hline, -, hartifact, -, hartifact', hname, hreads, hname', hreads', hiff,
    hlands⟩ := import_leads_iff fresh (.inl rfl) hs himporter htarget himport
  refine ⟨lines, spec, out, out', job, hjob, job', hjob', hlines, hline, hartifact, hartifact',
    fun heq => ?_⟩
  obtain rfl : "b.js/a" = name := Json.string.inj hname
  obtain rfl : "b" = name' := Json.string.inj hname'
  have hbare : (Name.segments "b.js/a").toOption = some ["b.js".toList, "a".toList] := by
    decide +kernel
  have hbare' : (Name.segments "b").toOption = some ["b".toList] := by decide +kernel
  rw [hreads.bare] at hbare
  rw [hreads'.bare] at hbare'
  cases hbare
  cases hbare'
  exact ((hlands (by decide +kernel)).1 (hiff.1 heq)).2.2 (by decide +kernel)

end Session
end SchemaArtifacts
