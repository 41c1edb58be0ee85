import SchemaArtifacts.Proofs.Name.LineFeed

/-!
# Where an import leads

An artifact names another by the way from the directory of its own bare name to the other's bare
name. Whoever follows that way starts from the directory of the artifact and puts the suffix behind
what it comes to. Three things must hold for this to be the other artifact: the other name keeps its
suffix; the way climbs from the directory of the artifact to where it climbs from that of the bare
name; and it has a last component at all, which it has not when the other's path with the marker is
a directory on the way to the importer.

## Main definitions

* `Name.Reads` — the segments of a name and of the name of its artifact
* `Name.ImportLands` — the three conditions

## Main results

* `Name.import_lands_iff` — an import leads to the artifact exactly under the three conditions
* `Name.importLands_iff` — what they amount to when the importer's name loses no line feed
-/

namespace SchemaArtifacts.Name

open SchemaArtifacts.Path

/-- The segments of a name and of the name of its artifact. -/
structure Reads (suffix name : String) (bare artifact : List (List Char)) : Prop where
  bare : segments name = .ok bare
  artifact : segments (name ++ suffix) = .ok artifact

/-- How many levels the way from a name to another goes up. -/
def levelsUp (importer target : List (List Char)) : Nat :=
  importer.dropLast.length - sharedLength importer.dropLast (suffixed marker target)

/-- The import of a name by another, both below a directory, leads to the artifact. -/
structure ImportLands (root : List (List Char)) (suffix importer target : String) : Prop where
  /-- The target's artifact is the target with the suffix. -/
  keeps : keepsSuffix (strip target)
  /-- From the importer's artifact the way climbs to where it climbs from its bare name. -/
  level : ∀ a a' b b', Reads suffix importer a a' → Reads suffix target b b' →
    climb (root ++ a'.dropLast) (levelsUp a b) = climb (root ++ a.dropLast) (levelsUp a b)
  /-- The target with the marker is no directory of the importer. -/
  apart : ∀ a a' b b', Reads suffix importer a a' → Reads suffix target b b' →
    ¬ suffixed marker b <+: a.dropLast

variable {suffix name importer target : String} {a a' b b' : List (List Char)}

theorem Reads.ne_nil (h : Reads suffix name a a') : a ≠ [] := (shape_of_segments h.bare).2.2

theorem strip_append (h : strip name ≠ []) : strip (name ++ suffix) = strip name ++ suffix.toList := by
  unfold strip at h ⊢
  rw [String.toList_append, List.dropWhile_append]
  simp [h]

/-- What the segments of the artifact are, in each of the three ways a name takes its suffix. -/
theorem Reads.cases (hs : IsExtension suffix.toList) (h : Reads suffix name a a') :
    keepsSuffix (strip name) ∧ a' = suffixed suffix.toList a ∨
    keepsSuffix (strip name) = false ∧ losesLineFeed (strip name) = false ∧
      a' = a ++ [suffix.toList] ∧ (∀ s ∈ a, '\n' ∉ s) ∨
    keepsSuffix (strip name) = false ∧ losesLineFeed (strip name) ∧
      a' = pathSegments (strip name ++ suffix.toList) ∧ ∀ s ∈ a, '\n' ∉ s := by
  obtain ⟨hne, hshape, -⟩ := shape_of_segments h.bare
  obtain ⟨-, hshape', -⟩ := shape_of_segments h.artifact
  rw [strip_append hne] at hshape'
  cases hk : keepsSuffix (strip name) with
  | true =>
    have hallowed := isAllowed_of_segments h.bare
    exact Or.inl ⟨rfl, hshape.append_of_keepsSuffix hs hne hshape' hallowed hk⟩
  | false =>
    have hscheme : ∃ scheme line, scheme? (strip name) = some (scheme, line) := by
      unfold keepsSuffix at hk
      split at hk
      · cases hk
      · exact ⟨_, _, ‹_›⟩
    obtain ⟨scheme, line, split⟩ := hscheme
    have hno := not_mem_of_scheme hshape split
    cases hl : losesLineFeed (strip name) with
    | false => exact Or.inr (Or.inl ⟨rfl, rfl, hshape.append_of_uri hs hshape' hk hl, hno⟩)
    | true => exact Or.inr (Or.inr ⟨rfl, rfl, hshape'.append_of_losesLineFeed hs hl, hno⟩)

/-- What a name that keeps its suffix looks like with it, from its last segment. -/
theorem suffixed_eq_of_ne_nil (h : a ≠ []) (suffix : List Char) :
    ∃ init last, a = init ++ [last] ∧ suffixed suffix a = init ++ [last ++ suffix] := by
  obtain ⟨init, last, rfl⟩ := (List.eq_nil_or_concat' a).resolve_left h
  exact ⟨init, last, rfl, suffixed_concat suffix last init⟩

theorem ne_concat_marker (last : List Char) : last ≠ last ++ marker := by
  intro h
  have := congrArg List.length h
  simp [marker] at this

theorem suffixed_eq_concat {suffix x : List Char} {parts xs : List (List Char)}
    (h : suffixed suffix parts = xs ++ [x]) :
    parts.dropLast = xs ∧ parts.getLastD [] ++ suffix = x := by
  obtain ⟨h1, h2⟩ := List.append_inj' h rfl
  exact ⟨h1, List.singleton_inj.1 h2⟩

theorem eq_concat_of_append_eq {xs start suffix : List Char} {c : Char}
    (h : xs ++ suffix = start ++ c :: suffix) : xs = start ++ [c] := by
  rw [List.append_cons] at h
  exact List.append_cancel_right h

theorem eq_concat_getLastD {parts : List (List Char)} (h : parts.getLastD [] ≠ []) :
    parts = parts.dropLast ++ [parts.getLastD []] := by
  obtain ⟨init, last, rfl⟩ := (List.eq_nil_or_concat' parts).resolve_left (by rintro rfl; simp at h)
  simp

section Landing

variable {root init : List (List Char)} {last : List Char}

/-- What the importer's directory cannot be when it is the target, or has the target's name. -/
theorem not_target_above (hs : IsExtension suffix.toList) (ha : Reads suffix importer a a')
    (habove : init ++ [last ++ marker] <+: a.dropLast)
    (hlength : a'.dropLast.length = a.dropLast.length) : ¬ init ++ [last] <+: a'.dropLast := by
  intro htarget
  -- With a suffix behind its last segment the importer has the directories that it had. Otherwise
  -- it has one more, or other ones.
  rcases ha.cases hs with ⟨-, rfl⟩ | ⟨-, -, rfl, -⟩ | ⟨-, hl, rfl, -⟩
  · rw [suffixed, List.dropLast_concat] at htarget
    have heq := List.prefix_of_prefix_length_le htarget habove (by simp)
    have hsame := heq.eq_of_length (by simp)
    exact ne_concat_marker last (List.singleton_inj.1 (List.append_inj' hsame rfl).2)
  · have hpos := List.length_pos_iff.2 ha.ne_nil
    rw [List.dropLast_concat, List.length_dropLast] at hlength
    omega
  · obtain ⟨-, hshape, -⟩ := shape_of_segments ha.bare
    have hne := ha.ne_nil
    obtain ⟨first, rest, hsegs, -⟩ := exists_first_of_losesLineFeed hs hl
    refine not_above_of_losesLineFeed hs hshape hl ?_ (habove.trans (List.dropLast_prefix a))
      (htarget.trans (List.dropLast_prefix _))
    rw [List.length_dropLast, List.length_dropLast] at hlength
    have hpos := List.length_pos_iff.2 hne
    rw [hsegs] at hlength ⊢
    simp only [List.length_cons] at hlength ⊢
    omega

/-- A directory of the importer ends in no line feed where a name does that loses it. -/
theorem not_line_feed_above (hs : IsExtension suffix.toList) (ha : Reads suffix importer a a')
    {start : List Char} (hmem : start ++ ['\n'] ∈ a'.dropLast) :
    keepsSuffix (strip importer) ∧ a'.dropLast = a.dropLast := by
  rcases ha.cases hs with ⟨hk, rfl⟩ | ⟨-, -, rfl, hno⟩ | ⟨-, hl, rfl, -⟩
  · exact ⟨hk, by rw [suffixed, List.dropLast_concat]⟩
  · rw [List.dropLast_concat] at hmem
    exact absurd (by simp) (hno _ hmem)
  · obtain ⟨init', start', hsegs, hno⟩ := exists_last_of_losesLineFeed hs hl
    rw [hsegs, List.dropLast_concat] at hmem
    exact absurd (by simp) (hno _ hmem)

/-- Without a last component the way leads to no artifact: it ends in a directory of the importer,
and none of them is the target or has the name of its artifact. -/
theorem not_lands_above (hs : IsExtension suffix.toList) (hroot : ∀ p ∈ root, IsClean p)
    (ha : Reads suffix importer a a') (hb : Reads suffix target (init ++ [last]) b')
    (habove : init ++ [last ++ marker] <+: a.dropLast) :
    suffixed suffix.toList (climb (root ++ a'.dropLast)
      (a.dropLast.length - (init ++ [last ++ marker]).length)) ≠ root ++ b' := by
  intro heq
  have hlast : IsClean last := isClean_of_segments hb.bare last (by simp)
  have hle := habove.length_le
  generalize hn : a.dropLast.length - (init ++ [last ++ marker]).length = n at heq
  generalize hway : climb (root ++ a'.dropLast) n = way at heq
  have hprefix : way <+: root ++ a'.dropLast := by
    rw [← hway]
    exact List.take_prefix _ _
  have hlen : way.length = (root ++ a'.dropLast).length - n := by
    rw [← hway, climb, List.length_take]
    omega
  -- The way ends in a directory of the importer. The artifact of the target has a last component
  -- that none of them has: the target's own with the suffix, the suffix alone, or one with a line
  -- feed before the suffix.
  rcases hb.cases hs with ⟨-, rfl⟩ | ⟨-, -, rfl, -⟩ | ⟨-, hl, rfl, -⟩
  · rw [suffixed_concat, ← List.append_assoc] at heq
    obtain ⟨hdir, hname⟩ := suffixed_eq_concat heq
    have hgot := List.append_cancel_right hname
    have hsplit : way = way.dropLast ++ [way.getLastD []] :=
      eq_concat_getLastD (by rw [hgot]; exact hlast.ne_nil)
    rw [hdir, hgot, List.append_assoc] at hsplit
    rw [hsplit] at hprefix hlen
    refine not_target_above hs ha habove ?_ ((List.prefix_append_right_inj root).1 hprefix)
    simp only [List.length_append, List.length_cons, List.length_nil] at hlen hn hle
    omega
  · rw [← List.append_assoc] at heq
    obtain ⟨hdir, hname⟩ := suffixed_eq_concat heq
    have hgot : way.getLastD [] = [] := by simpa using hname
    obtain ⟨init', last', rfl⟩ := (List.eq_nil_or_concat' way).resolve_left (by
      rintro rfl
      simp at hdir)
    rw [List.getLastD_concat] at hgot
    have hmem := hprefix.subset (a := last') (by simp)
    have hclean : IsClean last' := by
      rcases List.mem_append.1 hmem with hmem | hmem
      · exact hroot _ hmem
      · exact isClean_of_segments ha.artifact _ (List.dropLast_subset _ hmem)
    exact hclean.ne_nil hgot
  · obtain ⟨init', start, hsegs, -⟩ := exists_last_of_losesLineFeed hs hl
    rw [hsegs, ← List.append_assoc] at heq
    obtain ⟨hdir, hname⟩ := suffixed_eq_concat heq
    have hgot : way.getLastD [] = start ++ ['\n'] := eq_concat_of_append_eq hname
    have hsplit : way = way.dropLast ++ [way.getLastD []] := eq_concat_getLastD (by rw [hgot]; simp)
    rw [hdir, hgot, List.append_assoc] at hsplit
    rw [hsplit] at hprefix hlen
    have hartifact := (List.prefix_append_right_inj root).1 hprefix
    have hmem := hartifact.subset (a := start ++ ['\n']) (by simp)
    obtain ⟨-, hsame⟩ := not_line_feed_above hs ha hmem
    rw [hsame] at hartifact hlen
    have hends := (List.prefix_of_prefix_length_le hartifact habove (by
      simp only [List.length_append, List.length_cons, List.length_nil] at hlen hn hle ⊢
      omega)).eq_of_length (by
        simp only [List.length_append, List.length_cons, List.length_nil] at hlen hn hle ⊢
        omega)
    have hlast' := congrArg List.getLast? (List.singleton_inj.1 (List.append_inj' hends rfl).2)
    simp [marker] at hlast'

/-- With a last component the way leads to the artifact exactly if the target keeps its suffix and
the way climbs to the same place from both directories. -/
theorem lands_iff_of_not_above (hs : IsExtension suffix.toList)
    (hb : Reads suffix target (init ++ [last]) b') {here there shared : List (List Char)}
    (hshared : there ++ shared = root ++ init) :
    suffixed suffix.toList (here ++ (shared ++ [last])) = root ++ b' ↔
      keepsSuffix (strip target) ∧ here = there := by
  have hlast : IsClean last := isClean_of_segments hb.bare last (by simp)
  rw [← List.append_assoc, suffixed_concat]
  rcases hb.cases hs with ⟨hk, rfl⟩ | ⟨hk, -, rfl, -⟩ | ⟨hk, hl, rfl, hno⟩
  · rw [suffixed_concat, ← List.append_assoc, ← hshared]
    constructor
    · intro heq
      exact ⟨hk, List.append_cancel_right (List.append_cancel_right heq)⟩
    · rintro ⟨-, rfl⟩
      rfl
  · refine iff_of_false (fun heq => ?_) (by simp [hk])
    rw [← List.append_assoc] at heq
    have hname := List.singleton_inj.1 (List.append_inj' heq rfl).2
    exact hlast.ne_nil (by simpa using hname)
  · refine iff_of_false (fun heq => ?_) (by simp [hk])
    obtain ⟨init', start, hsegs, -⟩ := exists_last_of_losesLineFeed hs hl
    rw [hsegs, ← List.append_assoc] at heq
    have hname := List.singleton_inj.1 (List.append_inj' heq rfl).2
    have hends : last = start ++ ['\n'] := eq_concat_of_append_eq hname
    exact hno last (by simp) (by simp [hends])

end Landing

theorem Reads.unique (h : Reads suffix name a a') (h' : Reads suffix name b b') :
    a = b ∧ a' = b' := by
  have hbare := h.bare.symm.trans h'.bare
  have hartifact := h.artifact.symm.trans h'.artifact
  cases hbare
  cases hartifact
  exact ⟨rfl, rfl⟩

theorem importLands_iff_of_reads {root : List (List Char)} (ha : Reads suffix importer a a')
    (hb : Reads suffix target b b') :
    ImportLands root suffix importer target ↔ keepsSuffix (strip target) ∧
      climb (root ++ a'.dropLast) (levelsUp a b) = climb (root ++ a.dropLast) (levelsUp a b) ∧
      ¬ suffixed marker b <+: a.dropLast := by
  constructor
  · intro h
    exact ⟨h.keeps, h.level a a' b b' ha hb, h.apart a a' b b' ha hb⟩
  · rintro ⟨hk, hlevel, hapart⟩
    refine ⟨hk, fun a₁ a₁' b₁ b₁' ha₁ hb₁ => ?_, fun a₁ a₁' b₁ b₁' ha₁ hb₁ => ?_⟩
    · obtain ⟨rfl, rfl⟩ := ha.unique ha₁
      obtain ⟨rfl, -⟩ := hb.unique hb₁
      exact hlevel
    · obtain ⟨rfl, -⟩ := ha.unique ha₁
      obtain ⟨rfl, -⟩ := hb.unique hb₁
      exact hapart

section Way

variable {init top : List (List Char)} {last home path : List Char}

/-- The way climbs to what both directories have in common. -/
theorem climb_levelsUp (top : List (List Char)) (h : ¬ init ++ [last ++ marker] <+: a.dropLast) :
    climb (top ++ a.dropLast) (levelsUp a (init ++ [last])) =
      top ++ init.take (sharedLength a.dropLast (init ++ [last ++ marker])) := by
  have hle := sharedLength_le_left a.dropLast (init ++ [last ++ marker])
  have hlevels : (top ++ a.dropLast).length - levelsUp a (init ++ [last]) =
      top.length + sharedLength a.dropLast (init ++ [last ++ marker]) := by
    rw [levelsUp, suffixed_concat, List.length_append]
    omega
  rw [climb, hlevels, List.take_length_add_append, take_sharedLength_above h]

/-- Where the way leads that has no last component. -/
theorem resolve_of_above (hhome : normal home = top ++ a.dropLast)
    (htarget : normal (path ++ marker) = top ++ init ++ [last ++ marker])
    (h : init ++ [last ++ marker] <+: a.dropLast) (origin : List Char) :
    resolve origin (moduleSpecifier path home) =
      climb (normal origin) (a.dropLast.length - (init ++ [last ++ marker]).length) := by
  have hprefix : normal (path ++ marker) <+: normal home := by
    rw [htarget, hhome, List.append_assoc]
    exact (List.prefix_append_right_inj top).2 h
  have hup : (normal home).length - (normal (path ++ marker)).length =
      a.dropLast.length - (init ++ [last ++ marker]).length := by
    rw [htarget, hhome]
    simp only [List.length_append]
    omega
  rw [resolve_moduleSpecifier_above hprefix, hup]

/-- Where the way leads that has a last component. -/
theorem resolve_of_not_above (hhome : normal home = top ++ a.dropLast)
    (htarget : normal (path ++ marker) = top ++ init ++ [last ++ marker])
    (hclean : ∀ p ∈ top ++ init, IsClean p) (hlast : IsClean last)
    (h : ¬ init ++ [last ++ marker] <+: a.dropLast) (origin : List Char) :
    resolve origin (moduleSpecifier path home) =
      climb (normal origin) (levelsUp a (init ++ [last])) ++
        (init.drop (sharedLength a.dropLast (init ++ [last ++ marker])) ++ [last]) := by
  have hnot : ¬ top ++ init ++ [last ++ marker] <+: normal home := by
    rw [hhome, List.append_assoc, List.prefix_append_right_inj]
    exact h
  have hshared : sharedLength (normal home) (top ++ init ++ [last ++ marker]) =
      top.length + sharedLength a.dropLast (init ++ [last ++ marker]) := by
    rw [hhome, List.append_assoc, sharedLength_append]
  have hup : (normal home).length - sharedLength (normal home) (top ++ init ++ [last ++ marker]) =
      levelsUp a (init ++ [last]) := by
    rw [hshared, hhome, levelsUp, suffixed_concat, List.length_append]
    omega
  rw [resolve_moduleSpecifier htarget hclean hlast hnot, hup, hshared, List.drop_length_add_append]

end Way

/-- An import leads to the artifact of its target exactly under the three conditions. -/
theorem import_lands_iff (hs : IsExtension suffix.toList) (root : AbsolutePath)
    (ha : Reads suffix importer a a') (hb : Reads suffix target b b') :
    suffixed suffix.toList (resolve (dirname (root.join (a'.map String.ofList)).toString.toList)
        (moduleSpecifier (root.join (b.map String.ofList)).toString.toList
          (dirname (root.join (a.map String.ofList)).toString.toList))) =
      normal (root.join (b'.map String.ofList)).toString.toList ↔
    ImportLands (normal root.toString.toList) suffix importer target := by
  have hhome := normal_dirname_of_locate root ha.bare
  have horigin := normal_dirname_of_locate root ha.artifact
  obtain ⟨-, hartifact⟩ := normal_of_locate root hb.artifact
  have hroot := isClean_of_mem_normal root.toString.toList
  obtain ⟨init, last, rfl, hmarked⟩ := suffixed_eq_of_ne_nil hb.ne_nil marker
  have hclean := isClean_of_segments hb.bare
  have hlast : IsClean last := hclean last (by simp)
  have hinit : ∀ s ∈ init, IsClean s := fun s hs => hclean s (by simp [hs])
  have htarget := normal_join_append root hinit (isClean_append_marker hlast)
  have habove : ∀ p ∈ normal root.toString.toList ++ init, IsClean p := by
    intro p hp
    exact (List.mem_append.1 hp).elim (hroot p) (hinit p)
  rw [importLands_iff_of_reads ha hb, hmarked, hartifact]
  by_cases hover : init ++ [last ++ marker] <+: a.dropLast
  · rw [resolve_of_above hhome htarget hover, horigin]
    exact iff_of_false (not_lands_above hs hroot ha hb hover) (by simp [hover])
  · have hwhole : climb (normal root.toString.toList ++ a.dropLast) (levelsUp a (init ++ [last])) ++
        init.drop (sharedLength a.dropLast (init ++ [last ++ marker])) =
          normal root.toString.toList ++ init := by
      rw [climb_levelsUp _ hover, List.append_assoc, List.take_append_drop]
    rw [resolve_of_not_above hhome htarget habove hlast hover, horigin,
      lands_iff_of_not_above hs hb hwhole]
    simp [hover]

/-- When the importer's name loses no line feed, the three conditions are that both names keep their
suffix, and that the target with the marker is no directory of the importer. -/
theorem importLands_iff (hs : IsExtension suffix.toList) {root : List (List Char)}
    (ha : Reads suffix importer a a') (hb : Reads suffix target b b')
    (hl : losesLineFeed (strip importer) = false) :
    ImportLands root suffix importer target ↔ keepsSuffix (strip importer) ∧
      keepsSuffix (strip target) ∧ ¬ suffixed marker b <+: a.dropLast := by
  rw [importLands_iff_of_reads ha hb]
  rcases ha.cases hs with ⟨hk, rfl⟩ | ⟨hk, -, rfl, -⟩ | ⟨-, hloses, -, -⟩
  · have hdir : (suffixed suffix.toList a).dropLast = a.dropLast := by
      rw [suffixed, List.dropLast_concat]
    simp [hdir, hk]
  · refine iff_of_false (fun h => ?_) (by simp [hk])
    have hlength := congrArg List.length h.2.1
    have hpos := List.length_pos_iff.2 ha.ne_nil
    have hup : levelsUp a b ≤ a.dropLast.length := Nat.sub_le _ _
    simp only [climb, List.dropLast_concat, List.length_take, List.length_append,
      List.length_dropLast] at hlength hup
    omega
  · rw [hl] at hloses
    cases hloses

end SchemaArtifacts.Name
