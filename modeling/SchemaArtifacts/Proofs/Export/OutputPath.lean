import SchemaArtifacts.Proofs.Export.Specifier

/-!
# The paths of output names

An artifact is stored under the name of its namespace with a suffix behind it. If the name is a plain
path or a web URL, the artifact lies where the name's own path with the suffix behind it is, also where
the last component of the name is special: a directory names its index, a bare suffix is the suffix of
that index, and a URL may have nothing behind its host. A plain path that is accepted is accepted with
a suffix as well. A web URL need not be: a suffix behind a host in brackets makes it malformed.

## Main definitions

* `Name.HasScheme` — a name begins with a scheme and a colon

## Main results

* `Name.hasScheme_iff`, `Name.scheme?_eq_none_iff` — a name is split at the scheme it begins with
* `Name.keepsSuffix_of_hasScheme` — a suffix goes behind the last segment of a plain path or web URL
* `Name.segments_append_of_none` — a plain path that is accepted is accepted with a suffix
* `Cache.locate_append` — the path of a plain path or a web URL with a suffix
-/

namespace SchemaArtifacts

open SchemaArtifacts.Path

namespace Name

variable {name suffix : String} {s scheme line : List Char} {ss : List (List Char)}

/-- Behind its leading slashes, a name begins with a scheme, which starts with a letter, and a
colon. -/
structure HasScheme (name : String) (scheme : List Char) : Prop where
  letter : scheme.head?.any Char.isAlpha
  chars : ∀ c ∈ scheme, isSchemeChar c
  colon : ∃ rest, strip name = scheme ++ ':' :: rest

/-- A text on one line is split at the scheme that it begins with. -/
theorem scheme?_eq_some_iff (hline : '\n' ∉ s) : scheme? s = some (scheme, line) ↔
    s = scheme ++ ':' :: line ∧ scheme.head?.any Char.isAlpha ∧ ∀ c ∈ scheme, isSchemeChar c := by
  constructor
  · intro h
    obtain ⟨⟨hletter, hchars⟩, rest, rfl, hrest⟩ := exists_of_scheme? h
    obtain ⟨-, rfl | rfl⟩ := singleLine?_eq_some_iff.1 hrest
    · exact ⟨rfl, hletter, hchars⟩
    · exact absurd (by simp) hline
  · rintro ⟨rfl, hletter, hchars⟩
    have hrest : '\n' ∉ line := fun hmem => hline (by simp [hmem])
    rw [scheme?_eq ⟨hletter, hchars⟩, singleLine?_eq_some_iff.2 ⟨hrest, Or.inl rfl⟩]
    rfl

theorem not_mem_strip (h : '\n' ∉ name.toList) : '\n' ∉ strip name :=
  fun hmem => h ((List.dropWhile_suffix _).subset hmem)

theorem hasScheme_iff (hline : '\n' ∉ name.toList) :
    HasScheme name scheme ↔ ∃ line, scheme? (strip name) = some (scheme, line) := by
  constructor
  · rintro ⟨hletter, hchars, line, hname⟩
    exact ⟨line, (scheme?_eq_some_iff (not_mem_strip hline)).2 ⟨hname, hletter, hchars⟩⟩
  · rintro ⟨line, hsplit⟩
    obtain ⟨hname, hletter, hchars⟩ := (scheme?_eq_some_iff (not_mem_strip hline)).1 hsplit
    exact ⟨hletter, hchars, line, hname⟩

theorem scheme?_eq_none_iff (hline : '\n' ∉ name.toList) :
    scheme? (strip name) = none ↔ ∀ scheme, ¬ HasScheme name scheme := by
  simp [hasScheme_iff hline, Option.eq_none_iff_forall_ne_some]

/-- A plain path or a web URL on one line keeps its suffix. -/
theorem keepsSuffix_of_hasScheme (hline : '\n' ∉ name.toList)
    (h : ∀ scheme, HasScheme name scheme → isWeb (scheme.map Char.toLower)) :
    keepsSuffix (strip name) := by
  unfold keepsSuffix
  split
  · rfl
  · rename_i scheme line hsplit
    have hlast : (strip name).getLast? ≠ some '\n' := fun hlast =>
      not_mem_strip hline (List.mem_of_getLast? hlast)
    simp [hlast, h scheme ((hasScheme_iff hline).2 ⟨line, hsplit⟩)]

theorem isAllowed_append (hs : IsExtension suffix.toList) (h : isAllowed s) :
    isAllowed (s ++ suffix.toList) := by
  obtain ⟨c, rest, hsuffix, hc⟩ := hs.dotted
  have hbackslash : '\\' ∉ suffix.toList := hs.not_mem (by decide)
  have hnull : Char.ofNat 0 ∉ suffix.toList := hs.not_mem (by decide)
  -- A suffix goes on behind its dot, so the whole is not made of dots even if the name is empty.
  have hdots : isDots (s ++ suffix.toList) = false := by
    rw [hsuffix]
    cases s with
    | nil => simp [isDots, hc]
    | cons x s => cases s <;> simp [isDots]
  simp only [isAllowed, Bool.and_eq_true, Bool.not_eq_true', List.contains_eq_mem,
    decide_eq_false_iff_not] at h ⊢
  simp only [List.mem_append, not_or]
  exact ⟨⟨hdots, h.1.2, hbackslash⟩, h.2, hnull⟩

/-- A plain path that is accepted is accepted with a suffix, which goes behind its last segment. -/
theorem segments_append_of_none (hs : IsExtension suffix.toList) (h : segments name = .ok ss)
    (hplain : scheme? (strip name) = none) :
    segments (name ++ suffix) = .ok (suffixed suffix.toList ss) := by
  obtain ⟨hne, hshape, hss⟩ := shape_of_segments h
  have hallowed := isAllowed_of_segments h
  have hpath : ss = pathSegments (strip name) := hshape.eq_of_path hplain
  have hraw : rawSegments (name ++ suffix) = .ok (suffixed suffix.toList ss) := by
    have hstrip : strip (name ++ suffix) = strip name ++ suffix.toList := strip_append hne
    rw [rawSegments_of_none (by simp [hstrip, hne]) (hstrip ▸ scheme?_append_of_none hs hplain),
      hstrip, hpath, pathSegments_append hs hne (hpath ▸ hallowed)]
  obtain ⟨init, last, rfl, hsuffixed⟩ := suffixed_eq_of_ne_nil hss suffix.toList
  refine segments_of_isAllowed hraw (by simp [hsuffixed]) fun s hmem => ?_
  rw [hsuffixed] at hmem
  rcases List.mem_append.1 hmem with hmem | hmem
  · exact hallowed s (List.mem_append_left _ hmem)
  · rw [List.mem_singleton.1 hmem]
    exact isAllowed_append hs (hallowed last (by simp))

end Name

namespace AbsolutePath

/-- With a suffix behind its last component, a path has the text with the suffix behind it. -/
theorem toString_join_suffixed (root : AbsolutePath) {ss : List (List Char)} (hne : ss ≠ [])
    (suffix : String) :
    (root.join ((suffixed suffix.toList ss).map String.ofList)).toString =
      (root.join (ss.map String.ofList)).toString ++ suffix := by
  obtain ⟨above, htext⟩ := Name.exists_toString_join root
  obtain ⟨init, last, rfl, hsuffixed⟩ := Name.suffixed_eq_of_ne_nil hne suffix.toList
  refine String.toList_injective ?_
  rw [hsuffixed, String.toList_append, htext _ (by simp), htext _ (by simp), intercalate_concat,
    List.append_assoc, List.cons_append]

end AbsolutePath

/-- For every name on one line that is a plain path or a web URL, and each suffix of an artifact: if
both the name and the name with the suffix are accepted, the path with the suffix is the path of the
name with the suffix behind it; and a plain path that is accepted is accepted with the suffix. -/
theorem Cache.locate_append (c : Cache) {name suffix : String} (hline : '\n' ∉ name.toList)
    (hscheme : ∀ scheme, Name.HasScheme name scheme → Name.isWeb (scheme.map Char.toLower))
    (hsuffix : suffix = ".d.ts" ∨ suffix = ".js") :
    (∀ path path', c.locate name = .ok path → c.locate (name ++ suffix) = .ok path' →
        path'.toString = path.toString ++ suffix) ∧
      ((∀ scheme, ¬ Name.HasScheme name scheme) → ∀ path, c.locate name = .ok path →
        ∃ path', c.locate (name ++ suffix) = .ok path') := by
  have hs : Name.IsExtension suffix.toList := by
    rcases hsuffix with rfl | rfl
    · exact Name.isExtension_typeScript
    · exact Name.isExtension_javaScript
  refine ⟨fun path path' hname hsuffixed => ?_, fun hplain path hname => ?_⟩
  · obtain ⟨ss, hss, rfl⟩ := locate_eq_ok_iff.1 hname
    obtain ⟨ss', hss', rfl⟩ := locate_eq_ok_iff.1 hsuffixed
    have hkeeps := Name.keepsSuffix_of_hasScheme hline hscheme
    obtain ⟨hne, hshape, hnil⟩ := Name.shape_of_segments hss
    obtain ⟨-, hshape', -⟩ := Name.shape_of_segments hss'
    rw [Name.strip_append hne] at hshape'
    rw [hshape.append_of_keepsSuffix hs hne hshape' (Name.isAllowed_of_segments hss) hkeeps,
      AbsolutePath.toString_join_suffixed c.root hnil]
  · obtain ⟨ss, hss, rfl⟩ := locate_eq_ok_iff.1 hname
    have hsegments := Name.segments_append_of_none hs hss ((Name.scheme?_eq_none_iff hline).2 hplain)
    exact ⟨_, locate_eq_ok_iff.2 ⟨_, hsegments, rfl⟩⟩

/-- A directory named as a plain path is accepted with a suffix, and a URL without a path has the
suffix behind its host. -/
theorem Cache.locate_append_index : ∃ (c : Cache) (dir dir' host host' : AbsolutePath),
    c.root = .ofString { parts := ["w"] } "../x//./y" ∧ c.locate "//schema/" = .ok dir ∧
      c.locate ("//schema/" ++ ".d.ts") = .ok dir' ∧ dir'.toString = dir.toString ++ ".d.ts" ∧
      c.locate "HTTP://h" = .ok host ∧ c.locate ("HTTP://h" ++ ".js") = .ok host' ∧
      host'.toString = host.toString ++ ".js" := by
  let c : Cache := { root := .ofString { parts := ["w"] } "../x//./y" }
  have hplain : ∀ scheme, ¬ Name.HasScheme "//schema/" scheme :=
    (Name.scheme?_eq_none_iff (by decide)).1 (by decide)
  have hweb : ∀ scheme, Name.HasScheme "HTTP://h" scheme → Name.isWeb (scheme.map Char.toLower) := by
    intro scheme hscheme
    obtain ⟨line, hsplit⟩ := (Name.hasScheme_iff (by decide)).1 hscheme
    have hhttp : Name.scheme? (Name.strip "HTTP://h") = some ("HTTP".toList, "//h".toList) := by
      decide
    cases hhttp.symm.trans hsplit
    decide
  have hdir : c.locate "//schema/" = .ok (c.root.join ["schema", "index"]) := by
    decide +kernel
  have hhost : c.locate "HTTP://h" = .ok (c.root.join ["h"]) := by decide +kernel
  have hhost' : c.locate ("HTTP://h" ++ ".js") = .ok (c.root.join ["h.js"]) := by decide +kernel
  have htypeScript : ".d.ts" = ".d.ts" ∨ ".d.ts" = ".js" := .inl rfl
  have hjavaScript : ".js" = ".d.ts" ∨ ".js" = ".js" := .inr rfl
  obtain ⟨hpath, haccepted⟩ :=
    locate_append c (by decide) (fun s hs => absurd hs (hplain s)) htypeScript
  obtain ⟨dir', hdir'⟩ := haccepted hplain _ hdir
  obtain ⟨hweb', -⟩ := locate_append c (by decide) hweb hjavaScript
  exact ⟨c, _, dir', _, _, rfl, hdir, hdir', hpath _ _ hdir hdir', hhost, hhost',
    hweb' _ _ hhost hhost'⟩

end SchemaArtifacts
