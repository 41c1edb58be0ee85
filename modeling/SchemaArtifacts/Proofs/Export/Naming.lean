import SchemaArtifacts.Proofs.Export.Relocation
import SchemaArtifacts.Proofs.Path.Spelling

/-!
# How an exporter names other artifacts

An exporter names the artifact of any accepted name by the way from its own directory. The text of the
way tells the artifacts apart. It ends with the name of the artifact, and it begins with a dot part,
with two exceptions. If the artifact's path with the marker is the exporter's directory or one above
it, the way is made of dot parts only; and if the artifact lies below the directory, in an entry whose
name begins with a dot, the text begins with that name.

## Main results

* `Name.exists_isModule` — the path of a name leads to a module
* `Exporter.exists_ways` — what an exporter finds out about its directory and the ways from there
* `Exporter.specifier_names_target_iff` — when the text of the way names the artifact, and when it
  begins with a dot part
* `Exporter.specifier_eq_iff` — two artifacts are named alike only if they have one path
-/

namespace SchemaArtifacts

open SchemaArtifacts.Path

/-- The path of a name leads to a module, and its text ends with the name of the module. -/
theorem Name.exists_isModule (root : AbsolutePath) {name : String} {ss : List (List Char)}
    (h : segments name = .ok ss) : ∃ above last,
      IsModule (root.join (ss.map String.ofList)).toString.toList above last ∧
        lastComponent (root.join (ss.map String.ofList)).toString.toList = last := by
  have hclean := isClean_of_segments h
  have hleads := (normal_of_locate root h).2
  obtain ⟨init, last, rfl, -⟩ := suffixed_eq_of_ne_nil (shape_of_segments h).2.2 marker
  have hlast : IsClean last := hclean last (by simp)
  refine ⟨normal root.toString.toList ++ init, last, ⟨?_, ?_, ?_, hlast⟩, ?_⟩
  · rw [hleads, List.append_assoc]
  · exact normal_join_append root (fun s hs => hclean s (List.mem_append_left [last] hs))
      (isClean_append_marker hlast)
  · intro p hp
    rcases List.mem_append.1 hp with hroot | hinit
    · exact isClean_of_mem_normal _ p hroot
    · exact hclean p (List.mem_append_left _ hinit)
  · obtain ⟨head, htext, -⟩ :=
      exists_toString_join_concat root (init.map String.ofList) (String.ofList last)
    rw [List.map_append, List.map_cons, List.map_nil, htext, String.toList_ofList]
    exact lastComponent_append head hlast.no_slash

namespace Exporter

variable {c : Cache} {d : Document} {e : Exporter} {name name' : Json}
  {own target target' : String}

/-- If its own name is accepted, an exporter finds its directory, and the way from there to the path
of every accepted name. -/
theorem exists_ways (h : e.StandsFor c.root d)
    (hown : ((Cache.shelf.locate d.name).run c).1 = .ok own) :
    ∃ dir : String, (∃ n home, Name.segments n = .ok home ∧
        dir.toList = dirname (c.root.join (home.map String.ofList)).toString.toList) ∧
      ((homeDirectory Cache.shelf).run (c, e)).1 = .ok dir ∧
      ∀ name target, ((Cache.shelf.locate name).run c).1 = .ok target →
        ∃ n ss, Name.segments n = .ok ss ∧
          target = (c.root.join (ss.map String.ofList)).toString ∧
          ((pathTo Cache.shelf name).run (c, e)).1 =
            .ok (String.ofList (moduleSpecifier target.toList dir.toList)) := by
  rw [run_locate] at hown
  obtain ⟨_, hfail⟩ | ⟨n, home, hhome, hplace⟩ := d.name.locateBelow_cases
  · simp [hfail, Except.map] at hown
  have hdir : d.homeBelow c.root =
      .ok (String.ofList (dirname (c.root.join (home.map String.ofList)).toString.toList)) := by
    rw [Document.homeBelow, hplace]
    rfl
  obtain ⟨_, hrunDir, -⟩ := finds_homeDirectory (c := c) e h
  refine ⟨_, ⟨n, home, hhome, String.toList_ofList⟩, by rw [hrunDir, hdir],
    fun name target hname => ?_⟩
  rw [run_locate] at hname
  obtain ⟨_, hfail⟩ | ⟨m, ss, hss, hother⟩ := name.locateBelow_cases
  · simp [hfail, Except.map] at hname
  rw [hother, Except.map, Except.ok.injEq] at hname
  have hspec : d.specifierBelow c.root name = .ok (String.ofList (moduleSpecifier target.toList
      (dirname (c.root.join (home.map String.ofList)).toString.toList))) := by
    rw [Document.specifierBelow, hother, hdir, ← hname]
    simp only [bind, Except.bind, pure, Except.pure, String.toList_ofList]
  obtain ⟨_, hrunSpec, -⟩ := finds_pathTo (c := c) name e h
  exact ⟨m, ss, hss, hname.symm, by rw [hrunSpec, hspec, String.toList_ofList]⟩

/-- For every name that the cache accepts: the path by which an exporter names its artifact ends with
the name of the artifact, unless the artifact's path with the marker is the exporter's directory or
one above it; only then it ends with a dot part. It begins with a dot part and goes on unless it leads
down through a component beginning with a dot or, where it is made of dot parts, there is one only. -/
theorem specifier_names_target_iff (h : e.StandsFor c.root d)
    (hown : ((Cache.shelf.locate d.name).run c).1 = .ok own)
    (hname : ((Cache.shelf.locate name).run c).1 = .ok target) :
    ∃ dir spec, ((homeDirectory Cache.shelf).run (c, e)).1 = .ok dir ∧
      ((pathTo Cache.shelf name).run (c, e)).1 = .ok spec ∧
      (lastComponent spec.toList = lastComponent target.toList ↔
        ¬ normal (target.toList ++ marker) <+: normal dir.toList) ∧
      (Name.isDots (lastComponent spec.toList) ↔
        normal (target.toList ++ marker) <+: normal dir.toList) ∧
      (IsExplicit spec.toList ↔
        if normal (target.toList ++ marker) <+: normal dir.toList then
          (normal (target.toList ++ marker)).length + 2 ≤ (normal dir.toList).length
        else ¬ IsHiddenBelow (normal dir.toList) (normal target.toList)) := by
  obtain ⟨dir, -, hdir, hways⟩ := exists_ways h hown
  obtain ⟨n, ss, hss, rfl, hspec⟩ := hways name target hname
  obtain ⟨above, last, hmodule, hend⟩ := Name.exists_isModule c.root hss
  refine ⟨dir, _, hdir, hspec, ?_⟩
  rw [String.toList_ofList, hend]
  -- The name of a module is no dot part, so a way ends either with the one or with the other.
  have hlast := hmodule.last_clean.isDots_eq_false
  by_cases habove : normal ((c.root.join (ss.map String.ofList)).toString.toList ++ marker) <+:
      normal dir.toList
  · have hdots := isDots_lastComponent_moduleSpecifier habove
    have hnot : lastComponent (moduleSpecifier
        (c.root.join (ss.map String.ofList)).toString.toList dir.toList) ≠ last := by
      intro heq
      rw [heq, hlast] at hdots
      cases hdots
    rw [if_pos habove]
    exact ⟨iff_of_false hnot (not_not_intro habove), iff_of_true hdots habove,
      isExplicit_moduleSpecifier_above_iff habove⟩
  · have hnames := lastComponent_moduleSpecifier hmodule habove
    rw [if_neg habove, hnames, hlast]
    exact ⟨iff_of_true rfl habove, iff_of_false Bool.false_ne_true habove,
      isExplicit_moduleSpecifier_iff hmodule habove⟩

/-- Next to a directory whose name is that of an artifact with the marker: the way to this artifact is
a dot part, the way through an entry that begins with a dot begins as this entry does, and the way to
anything else begins with a dot part and ends with its name. -/
theorem specifier_names_target_iff_marked : ∃ (c : Cache) (d : Document) (e : Exporter)
    (up hidden beside : String), c.root = .ofString { parts := ["w"] } "../x//./y" ∧
      ((Cache.shelf.locate d.name).run c).1 = .ok "/w/../x/y/b.js/a" ∧
      ((pathTo Cache.shelf (.string "b")).run (c, e)).1 = .ok up ∧
      Name.isDots (lastComponent up.toList) ∧ ¬ IsExplicit up.toList ∧
      ((pathTo Cache.shelf (.string "b.js/.d/e")).run (c, e)).1 = .ok hidden ∧
      lastComponent hidden.toList = ['e'] ∧ ¬ IsExplicit hidden.toList ∧
      ((pathTo Cache.shelf (.string "/.b/f")).run (c, e)).1 = .ok beside ∧
      lastComponent beside.toList = ['f'] ∧ IsExplicit beside.toList := by
  let c : Cache := { root := .ofString { parts := ["w"] } "../x//./y" }
  let d : Document := { name := .string "b.js/a", imports := [], used := [] }
  let e : Exporter := { doc := some d, format := .javaScript }
  have hfor : e.StandsFor c.root d := ⟨rfl, fun _ hdir => by cases hdir⟩
  have hown : ((Cache.shelf.locate d.name).run c).1 = .ok "/w/../x/y/b.js/a" :=
    Act.eq_ok_of_toOption (by decide +kernel)
  have hhome : ((homeDirectory Cache.shelf).run (c, e)).1 = .ok "/w/../x/y/b.js" :=
    Act.eq_ok_of_toOption (by decide +kernel)
  have hup : ((Cache.shelf.locate (.string "b")).run c).1 = .ok "/w/../x/y/b" :=
    Act.eq_ok_of_toOption (by decide +kernel)
  have hhidden : ((Cache.shelf.locate (.string "b.js/.d/e")).run c).1 =
      .ok "/w/../x/y/b.js/.d/e" := Act.eq_ok_of_toOption (by decide +kernel)
  have hbeside : ((Cache.shelf.locate (.string "/.b/f")).run c).1 = .ok "/w/../x/y/.b/f" :=
    Act.eq_ok_of_toOption (by decide +kernel)
  obtain ⟨_, up, hdirUp, hpathUp, -, hdotsUp, hexplicitUp⟩ :=
    specifier_names_target_iff hfor hown hup
  obtain ⟨_, hidden, hdirHidden, hpathHidden, hendHidden, -, hexplicitHidden⟩ :=
    specifier_names_target_iff hfor hown hhidden
  obtain ⟨_, beside, hdirBeside, hpathBeside, hendBeside, -, hexplicitBeside⟩ :=
    specifier_names_target_iff hfor hown hbeside
  cases hhome.symm.trans hdirUp
  cases hhome.symm.trans hdirHidden
  cases hhome.symm.trans hdirBeside
  refine ⟨c, d, e, up, hidden, beside, rfl, hown, hpathUp, hdotsUp.2 (by decide +kernel), ?_,
    hpathHidden, (hendHidden.2 (by decide +kernel)).trans (by decide +kernel), ?_, hpathBeside,
    (hendBeside.2 (by decide +kernel)).trans (by decide +kernel), hexplicitBeside.2 ?_⟩
  · rw [hexplicitUp, if_pos (by decide +kernel)]
    decide +kernel
  · rw [hexplicitHidden, if_neg (by decide +kernel), not_not]
    exact ⟨['.', 'd'], [['e']], by decide +kernel, rfl⟩
  · rw [if_neg (by decide +kernel)]
    rintro ⟨first, rest, hpath, -⟩
    have hprefix : normal "/w/../x/y/b.js".toList <+: normal "/w/../x/y/.b/f".toList :=
      ⟨_, hpath.symm⟩
    revert hprefix
    decide +kernel

/-- For every two names that the cache accepts: an exporter names their artifacts by the same path if
and only if the artifacts have the same path. -/
theorem specifier_eq_iff (h : e.StandsFor c.root d)
    (hown : ((Cache.shelf.locate d.name).run c).1 = .ok own)
    (hname : ((Cache.shelf.locate name).run c).1 = .ok target)
    (hname' : ((Cache.shelf.locate name').run c).1 = .ok target') :
    ∃ spec spec', ((pathTo Cache.shelf name).run (c, e)).1 = .ok spec ∧
      ((pathTo Cache.shelf name').run (c, e)).1 = .ok spec' ∧ (spec = spec' ↔ target = target') := by
  obtain ⟨dir, -, -, hways⟩ := exists_ways h hown
  obtain ⟨n, ss, hss, htarget, hspec⟩ := hways name target hname
  obtain ⟨n', ss', hss', htarget', hspec'⟩ := hways name' target' hname'
  refine ⟨_, _, hspec, hspec', fun hsame => ?_, fun hsame => by rw [hsame]⟩
  obtain ⟨_, _, hmodule, -⟩ := Name.exists_isModule c.root hss
  obtain ⟨_, _, hmodule', -⟩ := Name.exists_isModule c.root hss'
  rw [← htarget] at hmodule
  rw [← htarget'] at hmodule'
  have hleads := eq_of_moduleSpecifier_eq hmodule hmodule' (String.ofList_injective hsame)
  rw [htarget, htarget', (Name.normal_of_locate c.root hss).2,
    (Name.normal_of_locate c.root hss').2] at hleads
  rw [htarget, htarget', List.append_cancel_left hleads]

/-- Two spellings of a name are named alike. Two names with different paths are not, even where both
ways are made of dot parts. -/
theorem specifier_eq_iff_marked : ∃ (c : Cache) (d : Document) (e : Exporter)
    (up again top : String), c.root = .ofString { parts := ["w"] } "../x//./y" ∧
      ((Cache.shelf.locate d.name).run c).1 = .ok "/w/../x/y/b.js/b.js/a" ∧
      ((pathTo Cache.shelf (.string "b")).run (c, e)).1 = .ok up ∧
      ((pathTo Cache.shelf (.string "//b")).run (c, e)).1 = .ok again ∧
      ((pathTo Cache.shelf (.string "b.js/b")).run (c, e)).1 = .ok top ∧ up = again ∧ up ≠ top := by
  let c : Cache := { root := .ofString { parts := ["w"] } "../x//./y" }
  let d : Document := { name := .string "b.js/b.js/a", imports := [], used := [] }
  let e : Exporter := { doc := some d, format := .typeScript }
  have hfor : e.StandsFor c.root d := ⟨rfl, fun _ hdir => by cases hdir⟩
  have hown : ((Cache.shelf.locate d.name).run c).1 = .ok "/w/../x/y/b.js/b.js/a" :=
    Act.eq_ok_of_toOption (by decide +kernel)
  have hup : ((Cache.shelf.locate (.string "b")).run c).1 = .ok "/w/../x/y/b" :=
    Act.eq_ok_of_toOption (by decide +kernel)
  have hagain : ((Cache.shelf.locate (.string "//b")).run c).1 = .ok "/w/../x/y/b" :=
    Act.eq_ok_of_toOption (by decide +kernel)
  have htop : ((Cache.shelf.locate (.string "b.js/b")).run c).1 = .ok "/w/../x/y/b.js/b" :=
    Act.eq_ok_of_toOption (by decide +kernel)
  obtain ⟨up, again, hpathUp, hpathAgain, hsame⟩ := specifier_eq_iff hfor hown hup hagain
  obtain ⟨up', top, hpathUp', hpathTop, hother⟩ := specifier_eq_iff hfor hown hup htop
  cases hpathUp.symm.trans hpathUp'
  refine ⟨c, d, e, up, again, top, rfl, hown, hpathUp, hpathAgain, hpathTop, hsame.2 rfl, ?_⟩
  rw [Ne, hother]
  decide

end Exporter
end SchemaArtifacts
