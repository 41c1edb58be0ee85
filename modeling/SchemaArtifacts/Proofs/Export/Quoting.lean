import SchemaArtifacts.Format.Label
import SchemaArtifacts.Proofs.Export.Naming
import SchemaArtifacts.Proofs.Text.Lexeme

/-!
# How an import line quotes its path

An import line holds the way to a module between two single quotes, as it is. The way leads up by dot
parts and then down through components of the module's path, and what the names of these components
hold stands in the line: names have no backslashes, but they may have single quotes and line breaks.

## Main definitions

* `Path.descent` — the components through which the way to a module leads down

## Main results

* `Path.mem_moduleSpecifier_iff` — which characters the way to a module holds
* `Exporter.import_denotes_path_iff` — when the quoted way is read as itself
-/

namespace SchemaArtifacts

namespace Path

variable {target dir last : List Char} {above ps : List (List Char)} {c : Char}

/-- The components through which the way from a directory to a module leads down. -/
def descent (target dir : List Char) : List (List Char) :=
  (normal target).drop (sharedLength (normal dir) (normal (target ++ marker)))

theorem mem_intercalate_iff (h : c ≠ '/') : c ∈ ['/'].intercalate ps ↔ ∃ p ∈ ps, c ∈ p := by
  induction ps with
  | nil => simp
  | cons p ps ih =>
    cases ps with
    | nil => simp
    | cons q ps =>
      rw [List.intercalate_cons_cons, List.mem_append, List.mem_append, ih, List.mem_singleton,
        or_iff_left h]
      simp only [List.mem_cons, exists_eq_or_imp]

theorem mem_visiblyRelative_iff (hdot : c ≠ '.') (hslash : c ≠ '/') (s : List Char) :
    c ∈ visiblyRelative s ↔ c ∈ s := by
  unfold visiblyRelative
  split
  · rfl
  · simp [hdot, hslash]

/-- The components of the way to a module are dot parts, and those through which it leads down. -/
theorem mem_moduleSpecifier_iff (h : IsModule target above last) (hdot : c ≠ '.')
    (hslash : c ≠ '/') : c ∈ moduleSpecifier target dir ↔ ∃ p ∈ descent target dir, c ∈ p := by
  have hups : ∀ n, ¬ ∃ p ∈ List.replicate n ['.', '.'], c ∈ p := by
    rintro n ⟨p, hp, hmem⟩
    rw [(List.mem_replicate.1 hp).2] at hmem
    simp [hdot] at hmem
  unfold descent
  by_cases habove : normal (target ++ marker) <+: normal dir
  · have hnone : (normal target).drop (sharedLength (normal dir) (normal (target ++ marker))) = [] := by
      rw [ sharedLength_of_prefix habove, h.marked, h.leads]
      simp
    rw [moduleSpecifier_above habove, hnone]
    split
    · simp [hdot]
    · rw [mem_intercalate_iff hslash]
      simpa using hups _
  · have hbeside := habove
    rw [h.marked] at hbeside
    have hle := sharedLength_le_above hbeside
    rw [moduleSpecifier_beside h.marked hbeside, mem_visiblyRelative_iff hdot hslash,
      mem_intercalate_iff hslash, moduleWay, h.leads, h.marked, List.drop_append_of_le_length hle]
    simp only [List.mem_append, or_and_right, exists_or]
    exact or_iff_right (hups _)

end Path

namespace Exporter

open SchemaArtifacts.Path

variable {c : Cache} {d : Document} {e : Exporter} {own target dir label alias_ full : String}

/-- The directory of an exporter lies below the root, or it is the root. -/
theorem root_prefix_of_homeDirectory (h : e.StandsFor c.root d)
    (hdir : ((homeDirectory Cache.shelf).run (c, e)).1 = .ok dir) :
    normal c.root.toString.toList <+: normal dir.toList := by
  obtain ⟨_, hrun, -⟩ := finds_homeDirectory (c := c) e h
  rw [hrun, Document.homeBelow] at hdir
  obtain ⟨_, hfail⟩ | ⟨n, home, hhome, hplace⟩ := d.name.locateBelow_cases
  · simp [hfail, Except.map] at hdir
  · rw [hplace] at hdir
    cases hdir
    rw [String.toList_ofList, Name.normal_dirname_of_locate c.root hhome]
    exact List.prefix_append _ _

/-- Below a root, the way to the module of a name leads down through segments of the name. -/
theorem descent_suffix_of_segments (root : AbsolutePath) {ss : List (List Char)}
    (h : Name.segments full = .ok ss) {dir : List Char}
    (hdir : normal root.toString.toList <+: normal dir) :
    descent (root.join (ss.map String.ofList)).toString.toList dir <:+ ss := by
  obtain ⟨rest, hrest⟩ := hdir
  have hclean := Name.isClean_of_segments h
  have hbelow := (Name.normal_of_locate root h).2
  obtain ⟨init, last, rfl, -⟩ := Name.suffixed_eq_of_ne_nil (Name.shape_of_segments h).2.2 marker
  have hmarked := normal_join_append root
    (fun s hs => hclean s (List.mem_append_left [last] hs))
    (isClean_append_marker (hclean last (by simp)))
  rw [descent, hbelow, hmarked, ← hrest, List.append_assoc, sharedLength_append,
    List.drop_length_add_append]
  exact List.drop_suffix _ _

theorem exists_quotes_importLine (hformat : Format.ofLabel label = .ok e.format)
    (halias : IsWord alias_) (spec : String) (value : Json) : ∃ before after,
      '\'' ∉ before ∧ '\'' ∉ after ∧ (e.format.importLine alias_ spec value).toList =
        before ++ '\'' :: spec.toList ++ '\'' :: after := by
  have hword : '\'' ∉ alias_.toList := halias.not_mem (by decide)
  have hfree : ∀ first last : String, '\'' ∉ first.toList → '\'' ∉ last.toList →
      '\'' ∉ first.toList ++ alias_.toList ++ last.toList := by
    intro first last hfirst hlast
    simp only [List.mem_append, hfirst, hword, hlast, or_self, not_false_eq_true]
  obtain heq | heq := Format.eq_or_eq_of_ofLabel hformat <;> rw [heq]
  · refine ⟨_, [';'], hfree "import * as " " from " (by decide) (by decide), by decide, ?_⟩
    change ("import * as " ++ alias_ ++ " from '" ++ spec ++ "';").toList = _
    simp only [String.toList_append, List.append_assoc]
    rfl
  · refine ⟨_, [')', ';'], hfree "var " " = require(" (by decide) (by decide), by decide, ?_⟩
    change ("var " ++ alias_ ++ " = require('" ++ spec ++ "');").toList = _
    simp only [String.toList_append, List.append_assoc]
    rfl

/-- For every exporting namespace and every imported name that the cache accepts, in both formats: what
stands between the quotes of the import line is the way to the artifact of the name. It has no
backslash, and besides dots and slashes it holds what the segments hold through which it leads down. So
it is read as the way if and only if none of them has a single quote or a line break. -/
theorem import_denotes_path_iff (h : e.StandsFor c.root d)
    (hformat : Format.ofLabel label = .ok e.format) (halias : IsWord alias_)
    (hown : ((Cache.shelf.locate d.name).run c).1 = .ok own)
    (hfull : ((Cache.shelf.locate (.string full)).run c).1 = .ok target) :
    ∃ dir spec segments, ((homeDirectory Cache.shelf).run (c, e)).1 = .ok dir ∧
      ((pathTo Cache.shelf (.string full)).run (c, e)).1 = .ok spec ∧
      (∃ before after, '\'' ∉ before ∧ '\'' ∉ after ∧
        (e.format.importLine alias_ spec (.string full)).toList =
          before ++ '\'' :: spec.toList ++ '\'' :: after) ∧
      Name.segments full = .ok segments ∧
      descent target.toList dir.toList <:+ segments ∧ '\\' ∉ spec.toList ∧
      (∀ ch, ch ≠ '.' → ch ≠ '/' →
        (ch ∈ spec.toList ↔ ∃ s ∈ descent target.toList dir.toList, ch ∈ s)) ∧
      ∀ escapes, Literal.Denotes escapes spec.toList spec.toList ↔
        ∀ s ∈ descent target.toList dir.toList, '\'' ∉ s ∧ '\n' ∉ s ∧ '\r' ∉ s := by
  obtain ⟨dir, -, hdir, hways⟩ := exists_ways h hown
  obtain ⟨_, _, -, -, hspec⟩ := hways (.string full) target hfull
  obtain ⟨ss, hss, rfl⟩ : ∃ ss, Name.segments full = .ok ss ∧
      target = (c.root.join (ss.map String.ofList)).toString := by
    rw [run_locate, Json.locateBelow_string, Result.map_eq_ok] at hfull
    obtain ⟨path, hplace, rfl⟩ := hfull
    obtain ⟨ss, hss, rfl⟩ := Name.exists_segments_of_locate (Result.mapError_eq_ok.1 hplace)
    exact ⟨ss, hss, rfl⟩
  obtain ⟨above, last, hmodule, -⟩ := Name.exists_isModule c.root hss
  have hsuffix := descent_suffix_of_segments c.root hss (root_prefix_of_homeDirectory h hdir)
  have hmem {ch : Char} (hdot : ch ≠ '.') (hslash : ch ≠ '/') :
      ch ∈ moduleSpecifier _ dir.toList ↔ _ := mem_moduleSpecifier_iff hmodule hdot hslash
  have hbackslash : '\\' ∉ moduleSpecifier
      (c.root.join (ss.map String.ofList)).toString.toList dir.toList := by
    rw [hmem (by decide) (by decide)]
    rintro ⟨s, hs, hchar⟩
    have hallowed := Name.isAllowed_of_segments hss s (hsuffix.subset hs)
    simp [Name.isAllowed, hchar] at hallowed
  refine ⟨dir, _, ss, hdir, hspec, exists_quotes_importLine hformat halias _ _, hss, hsuffix, ?_, ?_, ?_⟩
  · rw [String.toList_ofList]
    exact hbackslash
  · intro ch hdot hslash
    rw [String.toList_ofList]
    exact hmem hdot hslash
  · intro escapes
    rw [String.toList_ofList, Literal.denotes_self_iff hbackslash, hmem (by decide) (by decide),
      hmem (by decide) (by decide), hmem (by decide) (by decide)]
    simp only [not_exists, not_and]
    constructor
    · rintro ⟨hquote, hfeed, hreturn⟩ s hs
      exact ⟨hquote s hs, hfeed s hs, hreturn s hs⟩
    · intro hnone
      exact ⟨fun s hs => (hnone s hs).1, fun s hs => (hnone s hs).2.1, fun s hs => (hnone s hs).2.2⟩

/-- In one document, the way to a namespace is read as it is, also next to a root that has a single
quote, and the way to another namespace is not, for the single quote in the name. -/
theorem import_denotes_path_iff_quoted : ∃ (c : Cache) (d : Document) (e : Exporter)
    (plain quoted : String), c.root = .ofString { parts := ["w"] } "it's" ∧
      e.StandsFor c.root d ∧
      ((pathTo Cache.shelf (.string "a/c")).run (c, e)).1 = .ok plain ∧
      (∀ escapes, Literal.Denotes escapes plain.toList plain.toList) ∧
      ((pathTo Cache.shelf (.string "a/it's")).run (c, e)).1 = .ok quoted ∧
      ∀ escapes, ¬ Literal.Denotes escapes quoted.toList quoted.toList := by
  let c : Cache := { root := .ofString { parts := ["w"] } "it's" }
  let d : Document := { name := .string "a/b", imports := [], used := [] }
  let e : Exporter := { doc := some d, format := .typeScript }
  have hfor : e.StandsFor c.root d := ⟨rfl, fun _ hdir => by cases hdir⟩
  have hformat : Format.ofLabel "ts" = .ok e.format := rfl
  have hword : IsWord "b" := by decide +kernel
  have hown : ((Cache.shelf.locate d.name).run c).1 = .ok "/w/it's/a/b" :=
    Act.eq_ok_of_toOption (by decide +kernel)
  have hhome : ((homeDirectory Cache.shelf).run (c, e)).1 = .ok "/w/it's/a" :=
    Act.eq_ok_of_toOption (by decide +kernel)
  have hplain : ((Cache.shelf.locate (.string "a/c")).run c).1 = .ok "/w/it's/a/c" :=
    Act.eq_ok_of_toOption (by decide +kernel)
  have hquoted : ((Cache.shelf.locate (.string "a/it's")).run c).1 = .ok "/w/it's/a/it's" :=
    Act.eq_ok_of_toOption (by decide +kernel)
  obtain ⟨_, plain, _, hdir, hpathPlain, -, -, -, -, -, hreadsPlain⟩ :=
    import_denotes_path_iff hfor hformat hword hown hplain
  obtain ⟨_, quoted, _, hdir', hpathQuoted, -, -, -, -, -, hreadsQuoted⟩ :=
    import_denotes_path_iff hfor hformat hword hown hquoted
  cases hhome.symm.trans hdir
  cases hhome.symm.trans hdir'
  refine ⟨c, d, e, plain, quoted, rfl, hfor, hpathPlain, fun escapes => ?_, hpathQuoted,
    fun escapes => ?_⟩
  · rw [hreadsPlain]
    decide +kernel
  · rw [hreadsQuoted]
    decide +kernel

end Exporter
end SchemaArtifacts
