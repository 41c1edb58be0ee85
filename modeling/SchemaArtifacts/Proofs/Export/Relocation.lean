import SchemaArtifacts.Proofs.Export.Finding
import SchemaArtifacts.Proofs.Name.Import

/-!
# Artifacts do not depend on the root

An artifact names another by the way from directory to directory, and both lie below the root by the
segments of their names. What leads to the root is shared by both and falls out of the way, whatever
the root is: written with parent parts, with two slashes, or the top directory itself. So an artifact
has the same text below every root, and a document that has none has none for the same reason.

## Main results

* `Name.moduleSpecifier_congr` — the way between the modules of two names, below two roots
* `Document.specifierBelow_congr`, `Document.headerBelow_congr`, `Document.textBelow_congr` — what a
  document says of others, below two roots
* `Exporter.output_congr` — exporters on caches with different roots write the same
-/

namespace SchemaArtifacts

open SchemaArtifacts.Path

/-- The way from the directory of one name to the module of another is the same below two roots. -/
theorem Name.moduleSpecifier_congr (root root' : AbsolutePath) {name other : String}
    {home target : List (List Char)} (hhome : segments name = .ok home)
    (htarget : segments other = .ok target) :
    moduleSpecifier (root.join (target.map String.ofList)).toString.toList
        (dirname (root.join (home.map String.ofList)).toString.toList) =
      moduleSpecifier (root'.join (target.map String.ofList)).toString.toList
        (dirname (root'.join (home.map String.ofList)).toString.toList) := by
  have hclean := isClean_of_segments htarget
  obtain ⟨init, last, rfl, -⟩ := suffixed_eq_of_ne_nil (shape_of_segments htarget).2.2 marker
  have hinit : ∀ s ∈ init, IsClean s := fun s hs => hclean s (by simp [hs])
  have hlast : IsClean (last ++ marker) := isClean_append_marker (hclean last (by simp))
  have hway : ∀ r : AbsolutePath,
      relativeParts
          (normal ((r.join ((init ++ [last]).map String.ofList)).toString.toList ++ marker))
          (normal (dirname (r.join (home.map String.ofList)).toString.toList)) =
        relativeParts (init ++ [last ++ marker]) home.dropLast := by
    intro r
    rw [normal_join_append r hinit hlast, normal_dirname_of_locate r hhome, List.append_assoc,
      relativeParts_append]
  unfold moduleSpecifier
  rw [relative_congr ((hway root).trans (hway root').symm)]

/-- Whether a value has a path, and by which segments, is the same below every root. -/
theorem Json.locateBelow_cases (name : Json) :
    (∃ e, ∀ root, name.locateBelow root = .error e) ∨
      ∃ n ss, Name.segments n = .ok ss ∧
        ∀ root, name.locateBelow root = .ok (root.join (ss.map String.ofList)) := by
  cases hname : Cache.nameOf name with
  | error e =>
    refine Or.inl ⟨.shape e, fun root => ?_⟩
    simp only [locateBelow, hname]
    rfl
  | ok n =>
    cases hsegments : Name.segments n with
    | error e =>
      refine Or.inl ⟨.name e, fun root => ?_⟩
      simp only [locateBelow, hname]
      change (Name.locate root n).mapError Failure.name = _
      rw [Name.locate, hsegments]
      rfl
    | ok ss =>
      refine Or.inr ⟨n, ss, hsegments, fun root => ?_⟩
      simp only [locateBelow, hname]
      change (Name.locate root n).mapError Failure.name = _
      rw [Name.locate, hsegments]
      rfl

namespace Document

variable (root root' : AbsolutePath) (format : Format) (d : Document)

theorem specifierBelow_congr (name : Json) :
    d.specifierBelow root name = d.specifierBelow root' name := by
  unfold specifierBelow homeBelow
  rcases name.locateBelow_cases with ⟨e, hname⟩ | ⟨other, target, htarget, hname⟩
  · rw [hname, hname]
    rfl
  · rcases d.name.locateBelow_cases with ⟨e, hhome⟩ | ⟨own, home, hsegments, hhome⟩
    · simp only [hname, hhome, Except.map, bind, Except.bind]
    · have hsame := Name.moduleSpecifier_congr root root' hsegments htarget
      simp only [hname, hhome, Except.map, bind, Except.bind, String.toList_ofList, hsame]

theorem headerBelow_congr : d.headerBelow root format = d.headerBelow root' format := by
  unfold headerBelow
  simp only [specifierBelow_congr root root' d]

theorem textBelow_congr : d.textBelow root format = d.textBelow root' format := by
  unfold textBelow
  rw [headerBelow_congr root root' format d]

end Document

namespace Exporter

/-- Exporters of the same document in the same format, on caches with any two roots, name every other
artifact in the same way and write the same text, or fail to for the same reason. -/
theorem output_congr {c c' : Cache} {d : Document} {e e' : Exporter} (h : e.StandsFor c.root d)
    (h' : e'.StandsFor c'.root d) (hformat : e'.format = e.format) :
    (∀ name, ((pathTo Cache.shelf name).run (c', e')).1 = ((pathTo Cache.shelf name).run (c, e)).1) ∧
      ((header Cache.shelf).run (c', e')).1 = ((header Cache.shelf).run (c, e)).1 ∧
      ((contents Cache.shelf).run (c', e')).1 = ((contents Cache.shelf).run (c, e)).1 := by
  refine ⟨fun name => ?_, ?_, ?_⟩
  · obtain ⟨_, hrun, -⟩ := finds_pathTo (c := c) name e h
    obtain ⟨_, hrun', -⟩ := finds_pathTo (c := c') name e' h'
    rw [hrun, hrun', d.specifierBelow_congr c'.root c.root]
  · obtain ⟨_, hrun, -⟩ := run_header h
    obtain ⟨_, hrun', -⟩ := run_header h'
    rw [hrun, hrun', hformat, d.headerBelow_congr c'.root c.root]
  · obtain ⟨_, hrun, -⟩ := run_contents h
    obtain ⟨_, hrun', -⟩ := run_contents h'
    rw [hrun, hrun', hformat, d.textBelow_congr c'.root c.root]

/-- Below a root that goes up and below the top directory, an artifact that imports another has one
text. -/
theorem output_congr_top : ∃ (root root' : AbsolutePath) (d : Document) (text : String),
    root = .ofString { parts := ["w"] } "../x//./y" ∧ root' = .ofString { parts := ["w"] } "/" ∧
      text = "import * as D from '../../urn/d';\n" ∧
      ((contents Cache.shelf).run ({ root }, { doc := some d, format := .typeScript })).1 =
        .ok text ∧
      ((contents Cache.shelf).run ({ root := root' }, { doc := some d, format := .typeScript })).1 =
        .ok text := by
  let root : AbsolutePath := .ofString { parts := ["w"] } "../x//./y"
  let root' : AbsolutePath := .ofString { parts := ["w"] } "/"
  let d : Document :=
    { name := .string "http://a.org/b/c", imports := [(.string "D", .string "urn:d")], used := ["D"] }
  let e : Exporter := { doc := some d, format := .typeScript }
  have hfor : ∀ c : Cache, e.StandsFor c.root d := fun c => ⟨rfl, fun _ hdir => by cases hdir⟩
  have htext : ((contents Cache.shelf).run ({ root }, e)).1 =
      .ok "import * as D from '../../urn/d';\n" := by
    have hfound : (((contents Cache.shelf).run ({ root }, e)).1.toOption ==
        some "import * as D from '../../urn/d';\n") = true := by decide +kernel
    cases hrun : ((contents Cache.shelf).run ({ root }, e)).1 with
    | error err => simp [hrun, Except.toOption] at hfound
    | ok text => simpa [hrun, Except.toOption] using hfound
  obtain ⟨-, -, hsame⟩ := output_congr (hfor { root }) (hfor { root := root' }) rfl
  exact ⟨root, root', d, _, rfl, rfl, rfl, htext, hsame.trans htext⟩

end Exporter
end SchemaArtifacts
