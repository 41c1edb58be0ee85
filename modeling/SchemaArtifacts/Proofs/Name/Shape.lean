import SchemaArtifacts.Name.Location
import SchemaArtifacts.Proofs.Path.Lexical
import SchemaArtifacts.Proofs.Text.Cut

/-!
# The shapes of names

A name is read in one of three ways, and its segments are those of that way. Whichever it is, the
segments are clean components of a path: a name leads nowhere but below the root, one level for each
segment.

## Main definitions

* `Name.strip` — a name without its leading slashes
* `Name.Shape` — the way in which a name is read, with the segments that it gives
* `Name.IsScheme` — a letter, followed by characters of schemes

## Main results

* `Name.scheme?_eq`, `Name.exists_of_scheme?` — how a name is split at its scheme
* `Name.segments_eq_ok_iff` — which segments a name has
* `Name.shape_of_segments` — the segments of a name are those of its shape
* `Name.isClean_of_segments` — the segments of a name are clean
* `Name.normal_of_locate`, `Name.normal_dirname_of_locate` — where the path of a name leads
-/

namespace SchemaArtifacts

namespace Name

open SchemaArtifacts.Path

/-- A name without its leading slashes. -/
def strip (name : String) : List Char := name.toList.dropWhile (· = '/')

/-! ## How a name is read -/

section Reading

variable {name : String} {scheme line : List Char} {ss : List (List Char)} {cause : AuthorityError}

theorem webSegments_of_error (h : Url.ofSchemeless? line = .error cause) :
    webSegments name line = .error (.malformed cause) := by
  unfold webSegments
  rw [h]
  rfl

theorem webSegments_of_ok {u : Url} (h : Url.ofSchemeless? line = .ok u) : webSegments name line =
    if !u.query.isEmpty || !u.fragment.isEmpty then .error (.queryOrFragment name)
    else if u.authority.isEmpty then .error (.missingHost name)
    else .ok (u.authority :: pathSegments u.path) := by
  unfold webSegments
  rw [h]
  rfl

/-- The segments of a web URL are its authority and those of its path. -/
theorem webSegments_eq_ok_iff : webSegments name line = .ok ss ↔
    ∃ u, Url.ofSchemeless? line = .ok u ∧ u.query = [] ∧ u.fragment = [] ∧ u.authority ≠ [] ∧
      ss = u.authority :: pathSegments u.path := by
  cases hread : Url.ofSchemeless? line with
  | error e => simp [webSegments_of_error hread]
  | ok u =>
    rw [webSegments_of_ok hread]
    by_cases hparts : u.query = [] ∧ u.fragment = []
    · by_cases hhost : u.authority = []
      · simp [hparts, hhost]
      · have hok : ∀ ss', ss' = ss ↔ ss = ss' := fun _ => eq_comm
        simp [hparts, hhost, hok]
    · rw [not_and_or] at hparts
      have hsome : (!u.query.isEmpty || !u.fragment.isEmpty) = true := by simpa using hparts
      rw [if_pos hsome]
      constructor
      · intro h
        cases h
      · rintro ⟨u', hu, hquery, hfragment, -⟩
        cases hu
        exact (hparts.elim (· hquery) (· hfragment)).elim

theorem rawSegments_of_nil (h : strip name = []) : rawSegments name = .error (.empty name) := by
  unfold rawSegments
  rw [strip] at h
  rw [h]
  rfl

/-- A name without a scheme is read as a path. -/
theorem rawSegments_of_none (hne : strip name ≠ []) (hplain : scheme? (strip name) = none) :
    rawSegments name = .ok (pathSegments (strip name)) := by
  unfold rawSegments
  simp only [bind, Except.bind]
  change (if (strip name).isEmpty then _ else _) = _
  rw [if_neg (by simpa using hne)]
  rw [strip] at hplain
  rw [hplain]
  rfl

/-- How a name with a scheme is read. -/
theorem rawSegments_of_some (h : scheme? (strip name) = some (scheme, line)) :
    rawSegments name =
      if isWeb (scheme.map Char.toLower) then webSegments name line
      else if ['/', '/'].isPrefixOf line then
        .error (.foreignScheme (String.ofList (scheme.map Char.toLower)) name)
      else .ok (scheme.map Char.toLower :: Text.pieces (fun c => c = ':' || c = '/') line) := by
  have hne : strip name ≠ [] := by
    intro hnil
    rw [hnil] at h
    cases h
  unfold rawSegments
  simp only [bind, Except.bind]
  change (if (strip name).isEmpty then _ else _) = _
  rw [if_neg (by simpa using hne)]
  rw [strip] at h
  rw [h]
  rfl

theorem segments_of_isAllowed (h : rawSegments name = .ok ss) (hne : ss ≠ [])
    (hallowed : ∀ s ∈ ss, isAllowed s) : segments name = .ok ss := by
  have hfind : ss.find? (fun segment => !isAllowed segment) = none := by
    rw [List.find?_eq_none]
    intro s hs
    simp [hallowed s hs]
  have hfull : ss.isEmpty = false := by simpa using hne
  rw [segments, h]
  simp only [bind, Except.bind, hfull, Bool.false_eq_true, ↓reduceIte, hfind]
  rfl

/-- The segments of a name are those that are read off it, provided that all are allowed. -/
theorem segments_eq_ok_iff : segments name = .ok ss ↔
    rawSegments name = .ok ss ∧ ss ≠ [] ∧ ∀ s ∈ ss, isAllowed s := by
  constructor
  · intro h
    have hallowed := isAllowed_of_segments h
    simp only [segments, bind, Except.bind] at h
    split at h
    · cases h
    · rename_i raw hraw
      split at h
      · cases h
      · rename_i hne
        split at h
        · cases h
        · cases h
          exact ⟨hraw, by simpa using hne, hallowed⟩
  · rintro ⟨hraw, hne, hallowed⟩
    exact segments_of_isAllowed hraw hne hallowed

theorem rawSegments_of_strip_eq {other : String} (h : rawSegments name = .ok ss)
    (hstrip : strip other = strip name) : rawSegments other = .ok ss := by
  cases hsplit : scheme? (strip name) with
  | none =>
    have hne : strip name ≠ [] := by
      intro hnil
      rw [rawSegments_of_nil hnil] at h
      cases h
    rw [rawSegments_of_none hne hsplit] at h
    rw [rawSegments_of_none (by rwa [hstrip]) (by rwa [hstrip]), hstrip, h]
  | some split =>
    obtain ⟨scheme, line⟩ := split
    rw [rawSegments_of_some hsplit] at h
    rw [rawSegments_of_some (by rwa [hstrip])]
    by_cases hweb : isWeb (scheme.map Char.toLower)
    · rw [if_pos hweb, webSegments_eq_ok_iff] at h ⊢
      exact h
    · rw [if_neg hweb] at h ⊢
      split at h
      · cases h
      · rw [if_neg ‹_›, h]

/-- The slashes before a name make a difference only to what is said of a name that is refused. -/
theorem segments_of_strip_eq {other : String} (h : segments name = .ok ss)
    (hstrip : strip other = strip name) : segments other = .ok ss := by
  obtain ⟨hraw, hne, hallowed⟩ := segments_eq_ok_iff.1 h
  exact segments_eq_ok_iff.2 ⟨rawSegments_of_strip_eq hraw hstrip, hne, hallowed⟩

end Reading

/-! ## Shapes -/

/-- The way in which a stripped name is read, with its segments. -/
inductive Shape (name : List Char) : List (List Char) → Prop where
  | path (plain : scheme? name = none) : Shape name (pathSegments name)
  | web (scheme line : List Char) (url : Url) (split : scheme? name = some (scheme, line))
      (isWeb : isWeb (scheme.map Char.toLower)) (read : Url.ofSchemeless? line = .ok url)
      (query : url.query = []) (fragment : url.fragment = []) (host : url.authority ≠ []) :
      Shape name (url.authority :: pathSegments url.path)
  | uri (scheme line : List Char) (split : scheme? name = some (scheme, line))
      (other : isWeb (scheme.map Char.toLower) = false) :
      Shape name (scheme.map Char.toLower :: Text.pieces (fun c => c = ':' || c = '/') line)

section Inversion

variable {name scheme line : List Char} {ss : List (List Char)}

/-- Without a scheme a name is read as a path. -/
theorem Shape.eq_of_path (h : Shape name ss) (plain : scheme? name = none) :
    ss = pathSegments name := by
  cases h with
  | path => rfl
  | web _ _ _ split => exact absurd (plain.symm.trans split) (by simp)
  | uri _ _ split => exact absurd (plain.symm.trans split) (by simp)

/-- With a scheme of the web it is read as a URL. -/
theorem Shape.exists_of_web (h : Shape name ss) (split : scheme? name = some (scheme, line))
    (web : Name.isWeb (scheme.map Char.toLower)) :
    ∃ url, Url.ofSchemeless? line = .ok url ∧
      (url.query = [] ∧ url.fragment = [] ∧ url.authority ≠ []) ∧
      ss = url.authority :: pathSegments url.path := by
  cases h with
  | path plain => exact absurd (plain.symm.trans split) (by simp)
  | web _ _ url split' _ read query fragment host =>
    cases split.symm.trans split'
    exact ⟨url, read, ⟨query, fragment, host⟩, rfl⟩
  | uri _ _ split' other =>
    cases split.symm.trans split'
    rw [web] at other
    cases other

/-- With any other scheme it is read as the pieces of what stands behind the scheme. -/
theorem Shape.eq_of_uri (h : Shape name ss) (split : scheme? name = some (scheme, line))
    (other : Name.isWeb (scheme.map Char.toLower) = false) :
    ss = scheme.map Char.toLower :: Text.pieces (fun c => c = ':' || c = '/') line := by
  cases h with
  | path plain => exact absurd (plain.symm.trans split) (by simp)
  | web _ _ _ split' web =>
    cases split.symm.trans split'
    rw [other] at web
    cases web
  | uri _ _ split' =>
    cases split.symm.trans split'
    rfl

end Inversion

theorem shape_of_webSegments {name : String} {scheme line stripped : List Char}
    {ss : List (List Char)} (split : scheme? stripped = some (scheme, line))
    (hweb : isWeb (scheme.map Char.toLower)) (h : webSegments name line = .ok ss) :
    Shape stripped ss := by
  obtain ⟨url, read, query, fragment, host, rfl⟩ := webSegments_eq_ok_iff.1 h
  exact .web scheme line url split hweb read query fragment host

theorem shape_of_rawSegments {name : String} {ss : List (List Char)}
    (h : rawSegments name = .ok ss) : strip name ≠ [] ∧ Shape (strip name) ss := by
  by_cases hne : strip name = []
  · rw [rawSegments_of_nil hne] at h
    cases h
  · refine ⟨hne, ?_⟩
    cases hsplit : scheme? (strip name) with
    | none =>
      rw [rawSegments_of_none hne hsplit] at h
      cases h
      exact .path hsplit
    | some split =>
      obtain ⟨scheme, line⟩ := split
      rw [rawSegments_of_some hsplit] at h
      split at h
      · exact shape_of_webSegments hsplit ‹_› h
      · rename_i hother
        split at h
        · cases h
        · cases h
          exact .uri scheme line hsplit (by simpa using hother)

/-- The segments of a name are those of its shape. -/
theorem shape_of_segments {name : String} {ss : List (List Char)} (h : segments name = .ok ss) :
    strip name ≠ [] ∧ Shape (strip name) ss ∧ ss ≠ [] := by
  obtain ⟨hraw, hss, -⟩ := segments_eq_ok_iff.1 h
  obtain ⟨hstrip, hshape⟩ := shape_of_rawSegments hraw
  exact ⟨hstrip, hshape, hss⟩

theorem not_isDots_of_isAllowed {s : List Char} (h : isAllowed s) : s ≠ ['.'] ∧ s ≠ ['.', '.'] := by
  simp only [isAllowed, isDots, Bool.and_eq_true, Bool.not_eq_true', Bool.or_eq_false_iff,
    decide_eq_false_iff_not] at h
  exact h.1.1

theorem leaf_ne_nil (last : List Char) : leaf last ≠ [] := by
  unfold leaf
  split
  · simp [index]
  · split
    · simp [index]
    · simpa using ‹¬ last.isEmpty = true›

theorem mem_leaf {last : List Char} {c : Char} (h : c ∈ leaf last) : c ∈ last ∨ c ∈ index := by
  unfold leaf at h
  split at h
  · exact Or.inr h
  · split at h
    · exact (List.mem_append.1 h).symm
    · exact Or.inl h

theorem pathSegments_ok {path : List Char} :
    ∀ s ∈ pathSegments path, s ≠ [] ∧ '/' ∉ s := by
  intro s hs
  unfold pathSegments at hs
  rcases hcut : (Text.cutLast? '/' path).getD ([], path) with ⟨dirs, last⟩
  have hlast : '/' ∉ last := by
    cases h : Text.cutLast? '/' path with
    | none =>
      rw [h] at hcut
      cases hcut
      exact Text.cutLast?_eq_none_iff.1 h
    | some parts =>
      rw [h] at hcut
      obtain rfl : parts = (dirs, last) := hcut
      exact (Text.cutLast?_eq_some_iff.1 h).2
  rw [hcut] at hs
  rcases List.mem_append.1 hs with hs | hs
  · refine ⟨Text.ne_nil_of_mem_pieces hs, fun hslash => ?_⟩
    simpa using Text.not_mem_of_mem_pieces hs '/' hslash
  · split at hs
    · cases hs
    · rw [List.mem_singleton.1 hs]
      refine ⟨leaf_ne_nil last, fun hslash => ?_⟩
      rcases mem_leaf hslash with h | h
      · exact hlast h
      · revert h
        decide

/-- Only letters are made small. -/
theorem eq_of_toLower_eq {c d : Char} (h : c.toLower = d) (hd : d.val < 'A'.val) : c = d := by
  unfold Char.toLower at h
  split at h
  · rename_i hc
    have hval : c.val + ('a'.val - 'A'.val) = d.val := congrArg Char.val h
    have hnat := congrArg UInt32.toNat hval
    rw [UInt32.toNat_add] at hnat
    have hlow : 'A'.val.toNat ≤ c.val.toNat := UInt32.le_iff_toNat_le.1 hc.1
    have hhigh : c.val.toNat ≤ 'Z'.val.toNat := UInt32.le_iff_toNat_le.1 hc.2
    have hsmall : d.val.toNat < 'A'.val.toNat := UInt32.lt_iff_toNat_lt.1 hd
    simp only [show ('a'.val - 'A'.val).toNat = 32 from rfl, show 'A'.val.toNat = 65 from rfl,
      show 'Z'.val.toNat = 90 from rfl] at hnat hlow hhigh hsmall
    omega
  · exact h

section Scheme

variable {s scheme line : List Char}

theorem singleLine?_eq_some_iff :
    singleLine? s = some line ↔ '\n' ∉ line ∧ (s = line ∨ s = line ++ ['\n']) := by
  unfold singleLine?
  constructor
  · intro h
    split at h
    · rename_i hcut
      cases h
      exact ⟨Text.cut?_eq_none_iff.1 hcut, Or.inl rfl⟩
    · rename_i hcut
      cases h
      obtain ⟨rfl, hno⟩ := Text.cut?_eq_some_iff.1 hcut
      exact ⟨hno, Or.inr rfl⟩
    · cases h
  · rintro ⟨hno, rfl | rfl⟩
    · rw [Text.cut?_eq_none_iff.2 hno]
    · rw [Text.cut?_eq_some_iff.2 ⟨rfl, hno⟩]

/-- A scheme is a letter, followed by characters of schemes. -/
structure IsScheme (scheme : List Char) : Prop where
  letter : scheme.head?.any Char.isAlpha
  chars : ∀ c ∈ scheme, isSchemeChar c

/-- A text that begins with a scheme and a colon is split there, if the rest is a single line. -/
theorem scheme?_eq (h : IsScheme scheme) (rest : List Char) :
    scheme? (scheme ++ ':' :: rest) = (singleLine? rest).map fun line => (scheme, line) := by
  have hcolon : ':' ∉ scheme := fun hmem => absurd (h.chars ':' hmem) (by decide)
  unfold scheme?
  rw [Text.cut?_eq_some_iff.2 ⟨rfl, hcolon⟩]
  dsimp only
  rw [if_pos (by rw [Bool.and_eq_true, List.all_eq_true]; exact ⟨h.letter, h.chars⟩)]

/-- A text that is split begins with a scheme and a colon, and the rest is a single line. -/
theorem exists_of_scheme? (h : scheme? s = some (scheme, line)) :
    IsScheme scheme ∧ ∃ rest, s = scheme ++ ':' :: rest ∧ singleLine? rest = some line := by
  unfold scheme? at h
  split at h
  · cases h
  · rename_i start rest hcut
    obtain ⟨rfl, -⟩ := Text.cut?_eq_some_iff.1 hcut
    split at h
    · rename_i hok
      obtain ⟨line', hline, heq⟩ := Option.map_eq_some_iff.1 h
      cases heq
      rw [Bool.and_eq_true, List.all_eq_true] at hok
      exact ⟨⟨hok.1, hok.2⟩, rest, rfl, hline⟩
    · cases h

/-- The scheme of a name is a text of scheme characters, and not empty. -/
theorem scheme_ok (h : scheme? s = some (scheme, line)) :
    scheme ≠ [] ∧ ∀ c ∈ scheme, isSchemeChar c := by
  obtain ⟨⟨hletter, hchars⟩, -⟩ := exists_of_scheme? h
  refine ⟨?_, hchars⟩
  rintro rfl
  cases hletter

end Scheme

/-- A character that is neither a letter nor in a scheme is not in the scheme made small. -/
theorem not_mem_map_toLower {scheme : List Char} {d : Char} (h : ∀ c ∈ scheme, isSchemeChar c)
    (hd : d.val < 'A'.val) (hno : isSchemeChar d = false) : d ∉ scheme.map Char.toLower := by
  intro hmem
  obtain ⟨c, hc, heq⟩ := List.mem_map.1 hmem
  obtain rfl := eq_of_toLower_eq heq hd
  rw [h c hc] at hno
  cases hno

theorem Shape.ok {name : List Char} {ss : List (List Char)} (h : Shape name ss) :
    ∀ s ∈ ss, s ≠ [] ∧ '/' ∉ s := by
  cases h with
  | path => exact pathSegments_ok
  | web scheme line url _ _ read _ _ host =>
    intro s hs
    rcases List.mem_cons.1 hs with rfl | hs
    · refine ⟨host, fun hslash => ?_⟩
      simpa [Url.endsAuthority] using Url.authority_of_ofSchemeless? read '/' hslash
    · exact pathSegments_ok s hs
  | uri scheme line split =>
    intro s hs
    rcases List.mem_cons.1 hs with rfl | hs
    · obtain ⟨hne, hchars⟩ := scheme_ok split
      exact ⟨by simpa using hne, not_mem_map_toLower hchars (by decide) (by decide)⟩
    · refine ⟨Text.ne_nil_of_mem_pieces hs, fun hslash => ?_⟩
      simpa using Text.not_mem_of_mem_pieces hs '/' hslash

/-- The segments of a name are clean. -/
theorem isClean_of_segments {name : String} {ss : List (List Char)} (h : segments name = .ok ss) :
    ∀ s ∈ ss, IsClean s := by
  intro s hs
  obtain ⟨hne, hslash⟩ := (shape_of_segments h).2.1.ok s hs
  obtain ⟨hdot, hdots⟩ := not_isDots_of_isAllowed (isAllowed_of_segments h s hs)
  exact ⟨hne, hdot, hdots, hslash⟩

/-- A located name leads below what the root leads to, by its segments. -/
theorem normal_of_locate (root : AbsolutePath) {name : String} {ss : List (List Char)}
    (h : segments name = .ok ss) :
    locate root name = .ok (root.join (ss.map String.ofList)) ∧
      normal (root.join (ss.map String.ofList)).toString.toList =
        normal root.toString.toList ++ ss :=
  ⟨by simp [locate, h, Except.map], normal_join root (isClean_of_segments h)⟩

/-- The directory of a located name is one level above it. -/
theorem normal_dirname_of_locate (root : AbsolutePath) {name : String} {ss : List (List Char)}
    (h : segments name = .ok ss) :
    normal (dirname (root.join (ss.map String.ofList)).toString.toList) =
      normal root.toString.toList ++ ss.dropLast := by
  have hclean := isClean_of_segments h
  have hne := (shape_of_segments h).2.2
  have hsplit := List.dropLast_concat_getLast hne
  generalize ss.dropLast = init at hsplit
  generalize ss.getLast hne = last at hsplit
  subst hsplit
  rw [normal_dirname_join root (fun s hs => hclean s (by simp [hs])) (hclean last (by simp))]

end Name
end SchemaArtifacts
