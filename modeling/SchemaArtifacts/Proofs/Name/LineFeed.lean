import SchemaArtifacts.Proofs.Name.Suffix

/-!
# Names that lose a line feed

A name with a scheme is read without its final line feed. With a suffix the line feed is no longer
the last character, so the name has no scheme and is read as a path, into quite different segments:
the line feed stands in the last of them, the colon of the scheme in the first, and a web URL has
more of them than before.

## Main results

* `Name.not_mem_of_scheme` — without a suffix, no segment holds a line feed
* `Name.exists_last_of_losesLineFeed` — with a suffix, the last segment does, before the suffix
* `Name.not_above_of_losesLineFeed` — no module is above both the artifact and the bare name
-/

namespace SchemaArtifacts.Name

open SchemaArtifacts.Path

variable {suffix name scheme line : List Char} {ss : List (List Char)}

theorem not_mem_scheme (split : scheme? name = some (scheme, line)) {d : Char}
    (hd : isSchemeChar d = false) : d ∉ scheme := by
  intro hmem
  rw [(scheme_ok split).2 d hmem] at hd
  cases hd

theorem split_of_losesLineFeed (hl : losesLineFeed name) :
    ∃ scheme line, scheme? name = some (scheme, line) ∧ '\n' ∉ line ∧
      name = scheme ++ ':' :: (line ++ ['\n']) := by
  simp only [losesLineFeed, Bool.and_eq_true, Option.isSome_iff_exists, Prod.exists,
    decide_eq_true_eq] at hl
  obtain ⟨⟨scheme, line, split⟩, hlast⟩ := hl
  obtain ⟨hline, -, hname | hname⟩ := scheme?_eq_some split
  · exfalso
    rw [hname] at hlast
    have hmem := List.mem_of_getLast? hlast
    rcases List.mem_append.1 hmem with hmem | hmem
    · exact not_mem_scheme split (by decide) hmem
    · rcases List.mem_cons.1 hmem with hmem | hmem
      · cases hmem
      · exact hline hmem
  · exact ⟨scheme, line, split, hline, hname⟩

/-- A path of which the end is known. -/
theorem exists_dirs_of_append {t : List Char} (ht : '/' ∉ t) (hne : t ≠ []) (s : List Char) :
    ∃ dirs last, pathSegments (s ++ t) = Text.pieces (· = '/') dirs ++ [leaf (last ++ t)] ∧
      '/' ∉ last ∧ (dirs = [] ∧ s = last ∨ s = dirs ++ '/' :: last) := by
  have hempty : (s ++ t).isEmpty = false := by simp [hne]
  unfold pathSegments
  rw [Text.cutLast?_append ht, hempty]
  cases hcut : Text.cutLast? '/' s with
  | none => exact ⟨[], s, rfl, Text.cutLast?_eq_none_iff.1 hcut, Or.inl ⟨rfl, rfl⟩⟩
  | some parts =>
    obtain ⟨dirs, last⟩ := parts
    obtain ⟨hs, hlast⟩ := Text.cutLast?_eq_some_iff.1 hcut
    exact ⟨dirs, last, rfl, hlast, Or.inr hs⟩

/-- A path that does not end in a slash has as many segments as pieces. -/
theorem length_pathSegments_append {t : List Char} (ht : '/' ∉ t) (hne : t ≠ []) (s : List Char) :
    (pathSegments (s ++ t)).length = (Text.pieces (· = '/') (s ++ t)).length := by
  obtain ⟨dirs, last, hsegs, hlast, hs⟩ := exists_dirs_of_append ht hne s
  have hstretch : Text.pieces (· = '/') (last ++ t) = [last ++ t] := by
    refine Text.pieces_of_forall (fun x hx => decide_eq_false ?_) (by simp [hne])
    rintro rfl
    exact (List.mem_append.1 hx).elim hlast ht
  rw [hsegs]
  rcases hs with ⟨rfl, rfl⟩ | rfl
  · simp [hstretch]
  · rw [List.append_assoc, List.cons_append, Text.pieces_append_cons _ _ (by simp), hstretch]
    simp

/-- Text behind a path gives it no fewer pieces than the path has segments. -/
theorem length_pathSegments_le {t : List Char} (ht : '/' ∉ t) (hne : t ≠ []) (path : List Char) :
    (pathSegments path).length ≤ (Text.pieces (· = '/') (path ++ t)).length := by
  by_cases hp : path = []
  · simp [hp, pathSegments, Text.cutLast?, Text.cut?]
  · rw [← length_pathSegments_append ht hne path]
    obtain ⟨dirs, last, hsegs, hlast, hs⟩ := exists_dirs_of_append ht hne path
    rw [hsegs]
    rcases hs with ⟨rfl, rfl⟩ | rfl
    · simp [pathSegments, Text.cutLast?_eq_none_iff.2 hlast, hp]
    · simp [pathSegments, Text.cutLast?_eq_some_iff.2 ⟨rfl, hlast⟩]

theorem mem_of_mem_pathSegments {path s : List Char} (hs : s ∈ pathSegments path) {c : Char}
    (hc : c ∈ s) : c ∈ path ∨ c ∈ index := by
  unfold pathSegments at hs
  cases hcut : Text.cutLast? '/' path with
  | none =>
    rw [hcut] at hs
    simp only [Option.getD_none, Text.pieces_nil, List.nil_append] at hs
    split at hs
    · cases hs
    · rw [List.mem_singleton.1 hs] at hc
      exact mem_leaf hc
  | some parts =>
    obtain ⟨dirs, last⟩ := parts
    obtain ⟨rfl, -⟩ := Text.cutLast?_eq_some_iff.1 hcut
    rw [hcut] at hs
    rcases List.mem_append.1 hs with hs | hs
    · exact Or.inl (List.mem_append_left _ (Text.mem_of_mem_pieces hs hc))
    · split at hs
      · cases hs
      · rw [List.mem_singleton.1 hs] at hc
        refine (mem_leaf hc).imp_left fun hc => ?_
        exact List.mem_append_right _ (List.mem_cons_of_mem _ hc)

/-- No segment of a name with a scheme holds a line feed. -/
theorem not_mem_of_scheme (h : Shape name ss) (split : scheme? name = some (scheme, line)) :
    ∀ s ∈ ss, '\n' ∉ s := by
  obtain ⟨hline, -, -⟩ := scheme?_eq_some split
  intro s hs hmem
  cases hweb : isWeb (scheme.map Char.toLower) with
  | true =>
    obtain ⟨url, read, ⟨query, fragment, host⟩, rfl⟩ := h.exists_of_web split hweb
    obtain ⟨tail, hspells⟩ := Url.exists_spells read host query fragment
    have hno : ∀ c ∈ url.authority ++ url.path, c ≠ '\n' := by
      rintro c hc rfl
      have hin : '\n' ∈ '/' :: '/' :: (url.authority ++ (url.path ++ tail)) := by
        simp only [List.mem_append] at hc
        simp only [List.mem_cons, List.mem_append]
        tauto
      rw [← hspells.text_eq] at hin
      exact absurd (List.mem_filter.1 hin).2 (by decide)
    rcases List.mem_cons.1 hs with rfl | hs
    · exact hno _ (List.mem_append_left _ hmem) rfl
    · rcases mem_of_mem_pathSegments hs hmem with h | h
      · exact hno _ (List.mem_append_right _ h) rfl
      · revert h
        decide
  | false =>
    rw [h.eq_of_uri split hweb] at hs
    rcases List.mem_cons.1 hs with rfl | hs
    · exact not_mem_map_toLower (scheme_ok split).2 (by decide) (by decide) hmem
    · exact hline (Text.mem_of_mem_pieces hs hmem)

/-- A leaf is its text, with at most an index before it. -/
theorem exists_leaf_append (last t : List Char) (hne : t ≠ []) :
    ∃ start, leaf (last ++ t) = start ++ t := by
  unfold leaf
  rw [if_neg (by simp [hne])]
  split
  · exact ⟨index ++ last, by simp⟩
  · exact ⟨last, rfl⟩

theorem IsExtension.not_slash (hs : IsExtension suffix) : '/' ∉ '\n' :: suffix := by
  rw [List.mem_cons, not_or]
  exact ⟨by decide, hs.not_mem (by decide)⟩

theorem line_feed_append (scheme line suffix : List Char) :
    scheme ++ ':' :: (line ++ ['\n']) ++ suffix = (scheme ++ ':' :: line) ++ '\n' :: suffix := by
  simp

/-- A scheme and its colon hold no slash. -/
theorem not_slash_of_scheme (split : scheme? name = some (scheme, line)) {lost : List Char}
    (hlost : '/' ∉ lost) : ∀ x ∈ scheme ++ ':' :: lost, (decide (x = '/')) = false := by
  intro x hx
  refine decide_eq_false ?_
  rintro rfl
  rcases List.mem_append.1 hx with hx | hx
  · exact not_mem_scheme split (by decide) hx
  · exact (List.mem_cons.1 hx).elim (by decide) hlost

/-- With a suffix, the last segment of a name that loses its line feed ends in the line feed and the
suffix, and no other segment holds a line feed. -/
theorem exists_last_of_losesLineFeed (hs : IsExtension suffix) (hl : losesLineFeed name) :
    ∃ init start, pathSegments (name ++ suffix) = init ++ [start ++ '\n' :: suffix] ∧
      ∀ s ∈ init, '\n' ∉ s := by
  obtain ⟨scheme, line, split, hline, rfl⟩ := split_of_losesLineFeed hl
  obtain ⟨dirs, last, hsegs, -, hdirs⟩ :=
    exists_dirs_of_append hs.not_slash (by simp) (scheme ++ ':' :: line)
  obtain ⟨start, hleaf⟩ := exists_leaf_append last ('\n' :: suffix) (by simp)
  refine ⟨Text.pieces (· = '/') dirs, start, by rw [line_feed_append, hsegs, hleaf], ?_⟩
  intro s hmem hc
  have hin : '\n' ∈ scheme ++ ':' :: line := by
    have hd := Text.mem_of_mem_pieces hmem hc
    rcases hdirs with ⟨rfl, -⟩ | hdirs
    · cases hd
    · rw [hdirs]
      exact List.mem_append_left _ hd
  rcases List.mem_append.1 hin with hin | hin
  · exact not_mem_scheme split (by decide) hin
  · rcases List.mem_cons.1 hin with hin | hin
    · cases hin
    · exact hline hin

/-- With a suffix, the first segment holds the colon of the scheme. -/
theorem exists_first_of_losesLineFeed (hs : IsExtension suffix) (hl : losesLineFeed name) :
    ∃ first rest, pathSegments (name ++ suffix) = first :: rest ∧ ':' ∈ first := by
  obtain ⟨scheme, line, split, hline, rfl⟩ := split_of_losesLineFeed hl
  have hcolon : ∀ x ∈ scheme ++ [':'], (decide (x = '/')) = false :=
    not_slash_of_scheme split List.not_mem_nil
  obtain ⟨dirs, last, hsegs, hlast, hdirs⟩ :=
    exists_dirs_of_append hs.not_slash (by simp) (scheme ++ ':' :: line)
  rw [line_feed_append, hsegs]
  rcases hdirs with ⟨rfl, hone⟩ | hdirs
  · refine ⟨_, [], rfl, ?_⟩
    rw [← hone]
    obtain ⟨start, hleaf⟩ := exists_leaf_append [] (scheme ++ ':' :: line ++ '\n' :: suffix) (by simp)
    rw [List.nil_append] at hleaf
    rw [hleaf]
    simp
  · have hlonger : ∃ more, dirs = scheme ++ [':'] ++ more := by
      have heq : scheme ++ [':'] ++ line = dirs ++ '/' :: last := by simpa using hdirs
      rcases List.append_eq_append_iff.1 heq with ⟨more, hmore, -⟩ | ⟨more, hmore, hrest⟩
      · exact ⟨more, hmore⟩
      · cases more with
        | nil => exact ⟨[], by simpa using hmore.symm⟩
        | cons x more =>
          rw [List.cons_append, List.cons.injEq] at hrest
          have hx := hcolon x (by rw [hmore]; simp)
          rw [← hrest.1] at hx
          exact absurd hx (by decide)
    obtain ⟨more, rfl⟩ := hlonger
    obtain ⟨more', rest, hpieces⟩ := Text.exists_first_piece hcolon (by simp) more
    exact ⟨_, _, by rw [hpieces, List.cons_append], by simp⟩

/-- The host of a URL is a piece of its own, and with text behind it the path has no fewer pieces than
segments. -/
theorem length_le_of_spells {url : Url} {text tail t : List Char} (h : Url.Spells url text tail)
    (hhost : url.authority ≠ []) (ht : '/' ∉ t) (hne : t ≠ []) :
    (url.authority :: pathSegments url.path).length ≤
      (Text.pieces (· = '/') (url.authority ++ (url.path ++ t))).length := by
  have hauth : ∀ x ∈ url.authority, (decide (x = '/')) = false := by
    intro x hx
    refine decide_eq_false ?_
    rintro rfl
    exact absurd (h.authority _ hx) (by decide)
  -- Without a path the text goes on the piece of the host. Otherwise the path begins with the slash
  -- behind it.
  cases hp : url.path with
  | nil =>
    have hstretch : ∀ x ∈ url.authority ++ t, (decide (x = '/')) = false := by
      intro x hx
      rcases List.mem_append.1 hx with hx | hx
      · exact hauth x hx
      · exact decide_eq_false fun hslash => ht (hslash ▸ hx)
    rw [List.nil_append, Text.pieces_of_forall hstretch (by simp [hhost])]
    simp [pathSegments, Text.cutLast?, Text.cut?]
  | cons c p =>
    have hc : c = '/' := by
      have hplain := h.path_plain
      have hstop := h.path
      rw [hp] at hplain hstop
      simp only [List.cons_append, reduceCtorEq, List.head?_cons, Option.any_some,
        Url.endsAuthority, Bool.or_eq_true, decide_eq_true_eq, false_or] at hstop
      rcases hstop with (hc | rfl) | rfl
      · exact hc
      · exact absurd List.mem_cons_self hplain.1
      · exact absurd List.mem_cons_self hplain.2
    have hle := length_pathSegments_le ht hne (c :: p)
    subst hc
    rw [← List.nil_append ('/' :: p ++ t), List.cons_append,
      Text.pieces_append_cons _ _ (by simp)] at hle
    rw [List.cons_append, Text.pieces_append_cons _ _ (by simp),
      Text.pieces_of_forall hauth hhost]
    simpa using hle

/-- With a suffix, what stands before the first slash of a name that loses its line feed is one
segment, and every piece behind it another. -/
theorem length_pathSegments_of_slash (hs : IsExtension suffix)
    (split : scheme? name = some (scheme, line)) {lost rest : List Char} (hlost : '/' ∉ lost)
    (hline : line ++ '\n' :: suffix = lost ++ '/' :: rest) :
    (pathSegments (scheme ++ ':' :: (line ++ ['\n']) ++ suffix)).length =
      (Text.pieces (· = '/') rest).length + 1 := by
  have hcut : scheme ++ ':' :: (line ++ ['\n']) ++ suffix =
      (scheme ++ ':' :: lost) ++ '/' :: rest := by
    rw [line_feed_append, List.append_assoc, List.cons_append, hline]
    simp
  have hlen := length_pathSegments_append hs.not_slash (by simp) (scheme ++ ':' :: line)
  rw [← line_feed_append, hcut, Text.pieces_append_cons _ _ (by simp),
    Text.pieces_of_forall (not_slash_of_scheme split hlost) (by simp)] at hlen
  rw [hcut, hlen, List.length_append, List.length_singleton, Nat.add_comm]

/-- With a suffix, a web URL that loses its line feed has more segments than without. -/
theorem length_lt_of_losesLineFeed (hs : IsExtension suffix) (hl : losesLineFeed name)
    (split : scheme? name = some (scheme, line)) {url : Url}
    (read : Url.ofSchemeless? line = .ok url)
    (accepted : url.query = [] ∧ url.fragment = [] ∧ url.authority ≠ []) :
    (url.authority :: pathSegments url.path).length < (pathSegments (name ++ suffix)).length := by
  obtain ⟨_, _, split', -, rfl⟩ := split_of_losesLineFeed hl
  cases split.symm.trans split'
  obtain ⟨tail, hspells⟩ := Url.exists_spells read accepted.2.2 accepted.1 accepted.2.1
  have hno : '/' ∉ suffix := hs.not_mem (by decide)
  have htail : '/' ∉ tail ++ suffix := by
    intro hmem
    rcases List.mem_append.1 hmem with hmem | hmem
    · rcases hspells.tail_marks _ hmem with h | h <;> revert h <;> decide
    · exact hno hmem
  have hne : tail ++ suffix ≠ [] := by simp [hs.ne_nil]
  have hfilter : (line ++ '\n' :: suffix).filter (fun c => !Url.isDropped c) =
      '/' :: '/' :: (url.authority ++ (url.path ++ (tail ++ suffix))) := by
    have hcut : line ++ '\n' :: suffix = (line ++ ['\n']) ++ suffix := by simp
    rw [hcut, filter_isDropped_append hs, List.filter_append, hspells.text_eq]
    simp [Url.isDropped]
  obtain ⟨lost, rest, hline, hlost, -, hrest⟩ := List.filter_eq_cons_iff.1 hfilter
  have hcount := length_pathSegments_of_slash hs split
    (fun hmem => absurd (hlost _ hmem) (by decide)) hline
  have hkept : (!Url.isDropped '/') = true := by decide
  have hle : (Text.pieces (· = '/') (rest.filter fun c => !Url.isDropped c)).length ≤
      (Text.pieces (· = '/') rest).length := Text.length_pieces_filter_le '/' hkept rest
  have hparts := length_le_of_spells hspells accepted.2.2 htail hne
  have hslash' : Text.pieces (· = '/') ('/' :: (url.authority ++ (url.path ++ (tail ++ suffix)))) =
      Text.pieces (· = '/') (url.authority ++ (url.path ++ (tail ++ suffix))) :=
    Text.pieces_append_cons [] _ (by simp)
  rw [hrest, hslash'] at hle
  rw [hcount]
  omega

/-- A module cannot, with a marker, be above the bare name and, without it, at the same level above
the artifact. -/
theorem not_above_of_losesLineFeed (hs : IsExtension suffix) (h : Shape name ss)
    (hl : losesLineFeed name) {above : List (List Char)} {last marker : List Char}
    (hlength : ss.length = (pathSegments (name ++ suffix)).length)
    (hbare : above ++ [last ++ marker] <+: ss) :
    ¬ above ++ [last] <+: pathSegments (name ++ suffix) := by
  intro hartifact
  obtain ⟨scheme, line, split, -, -⟩ := split_of_losesLineFeed hl
  cases hweb : isWeb (scheme.map Char.toLower) with
  | true =>
    obtain ⟨url, read, accepted, rfl⟩ := h.exists_of_web split hweb
    have hlt := length_lt_of_losesLineFeed hs hl split read accepted
    rw [← hlength] at hlt
    exact absurd hlt (Nat.lt_irrefl _)
  | false =>
    rw [h.eq_of_uri split hweb] at hbare
    obtain ⟨first, rest, hsegs, hcolon⟩ := exists_first_of_losesLineFeed hs hl
    rw [hsegs] at hartifact
    have hno : ':' ∉ scheme.map Char.toLower :=
      not_mem_map_toLower (scheme_ok split).2 (by decide) (by decide)
    cases above with
    | nil =>
      rw [List.nil_append, List.cons_prefix_cons] at hbare hartifact
      apply hno
      rw [← hbare.1, hartifact.1]
      exact List.mem_append_left _ hcolon
    | cons part above =>
      rw [List.cons_append, List.cons_prefix_cons] at hbare hartifact
      apply hno
      rw [← hbare.1, hartifact.1]
      exact hcolon

end SchemaArtifacts.Name
