import SchemaArtifacts.Proofs.Name.LineFeed

/-!
# How names with a suffix end

A suffix stands at the end of the last segment of a name, whatever its shape and however much of the
name in front of it is dropped, renamed or read in another way. Here nothing is known of the name
without the suffix: it may well be refused.

## Main results

* `Name.exists_last_pathSegments`, `Name.exists_last_pieces` — the end of a path and of a URI
* `Name.Shape.exists_last` — the end of a name of any shape
* `Name.exists_last_of_segments` — the last segment of an accepted name with a suffix
-/

namespace SchemaArtifacts.Name

open SchemaArtifacts.Path

variable {suffix name scheme line : List Char} {ss : List (List Char)}

/-- What follows the scheme of a name with a suffix ends in the suffix. -/
theorem suffix_line_of_scheme? (hs : IsExtension suffix)
    (h : scheme? (name ++ suffix) = some (scheme, line)) : ∃ start, line = start ++ suffix := by
  cases hname : scheme? name with
  | none =>
    rw [scheme?_append_of_none hs hname] at h
    cases h
  | some parts =>
    obtain ⟨_, start⟩ := parts
    rw [scheme?_append_of_some hs hname] at h
    split at h
    · cases h
    · cases h
      exact ⟨start, rfl⟩

theorem exists_last_pathSegments (hslash : '/' ∉ suffix) (hne : suffix ≠ []) (path : List Char) :
    ∃ init start, pathSegments (path ++ suffix) = init ++ [start ++ suffix] := by
  obtain ⟨dirs, last, hsegments, -, -⟩ := exists_dirs_of_append hslash hne path
  obtain ⟨start, hleaf⟩ := exists_leaf_append last suffix hne
  exact ⟨_, start, by rw [hsegments, hleaf]⟩

theorem exists_last_pieces {sep : Char → Bool} (hplain : ∀ c ∈ suffix, sep c = false)
    (hne : suffix ≠ []) (line : List Char) :
    ∃ init start, Text.pieces sep (line ++ suffix) = init ++ [start ++ suffix] := by
  obtain ⟨before, last, -, -, happend⟩ := Text.exists_last_piece sep line
  exact ⟨before, last, by rw [happend suffix hplain, if_neg (by simp [hne])]⟩

/-- The last segment of a name with a suffix ends in the suffix. -/
theorem Shape.exists_last (hs : IsExtension suffix) (h : Shape (name ++ suffix) ss) :
    ∃ init start, ss = init ++ [start ++ suffix] := by
  have hslash : '/' ∉ suffix := hs.not_mem (by decide)
  cases h with
  | path => exact exists_last_pathSegments hslash hs.ne_nil name
  | web scheme line url split _ read query fragment host =>
    obtain ⟨start, rfl⟩ := suffix_line_of_scheme? hs split
    obtain ⟨tail, hspells⟩ := Url.exists_spells read host query fragment
    rw [filter_isDropped_append hs] at hspells
    obtain ⟨hpath, before, hhost⟩ | ⟨before, hpath⟩ :=
      hspells.exists_end hs.not_endsAuthority hs.ne_nil
    · exact ⟨[], before, by rw [hpath, ← hhost]; rfl⟩
    · obtain ⟨init, start, hsegments⟩ := exists_last_pathSegments hslash hs.ne_nil before
      exact ⟨url.authority :: init, start, by rw [← hpath, hsegments, List.cons_append]⟩
  | uri scheme line split =>
    obtain ⟨start, rfl⟩ := suffix_line_of_scheme? hs split
    obtain ⟨init, last, hpieces⟩ := exists_last_pieces hs.not_separator hs.ne_nil start
    exact ⟨scheme.map Char.toLower :: init, last, by rw [hpieces, List.cons_append]⟩

/-- A suffix begins with a dot, so no slash is dropped from it. -/
theorem strip_append_of_isExtension {name suffix : String} (hs : IsExtension suffix.toList) :
    strip (name ++ suffix) = strip name ++ suffix.toList := by
  obtain ⟨c, rest, hsuffix, -⟩ := hs.dotted
  unfold strip
  rw [String.toList_append, List.dropWhile_append]
  split
  · rename_i hempty
    rw [List.isEmpty_iff.1 hempty, hsuffix]
    rfl
  · rfl

theorem exists_last_of_segments {name suffix : String} (hs : IsExtension suffix.toList)
    (h : segments (name ++ suffix) = .ok ss) :
    ∃ init start, ss = init ++ [start ++ suffix.toList] := by
  obtain ⟨-, hshape, -⟩ := shape_of_segments h
  rw [strip_append_of_isExtension hs] at hshape
  exact hshape.exists_last hs

end SchemaArtifacts.Name
