import SchemaArtifacts.Cache.Basic
import SchemaArtifacts.Proofs.Export.OutputPath

/-!
# Which names are refused

A name is split at its scheme only if what follows the scheme is a single line. A name with a line feed
before its end is read as a plain path, even if it begins like a URL, and then no part of it is checked
as a URL: it has a path unless one of its segments is not allowed. A web URL on one line is read by the
rules for URLs, which refuse some authorities on their own. Such a refusal is no answer of the cache,
and whoever asks for the name gets it as a failure.

## Main definitions

* `Name.IsHierarchical` — a name begins with a scheme, a colon and two slashes
* `Name.IsMalformed` — the authority of a web URL is refused

## Main results

* `Name.singleLine?_eq_none_iff` — which texts are no single line
* `Name.locate_hierarchical_iff` — which names that begin like a URL have a path
* `Name.IsMalformed.exists_mem` — what an authority that is refused has in it
* `Cache.isCached_answers` — the answers to whether a name is there
-/

namespace SchemaArtifacts

namespace Name

variable {name : String} {s scheme rest line tail : List Char} {ss : List (List Char)}
  {cause : AuthorityError}

/-! ## Lines -/

/-- A text is no single line if and only if a line feed stands before its end. -/
theorem singleLine?_eq_none_iff : singleLine? s = none ↔ '\n' ∈ s.dropLast := by
  constructor
  · intro h
    by_contra hno
    rcases List.eq_nil_or_concat' s with rfl | ⟨init, last, rfl⟩
    · cases h
    · rw [List.dropLast_concat] at hno
      have hsome : ∃ line, singleLine? (init ++ [last]) = some line := by
        by_cases hlast : last = '\n'
        · exact ⟨init, singleLine?_eq_some_iff.2 ⟨hno, Or.inr (by rw [hlast])⟩⟩
        · refine ⟨init ++ [last], singleLine?_eq_some_iff.2 ⟨fun hmem => ?_, Or.inl rfl⟩⟩
          rcases List.mem_append.1 hmem with hmem | hmem
          · exact hno hmem
          · exact hlast (List.mem_singleton.1 hmem).symm
      obtain ⟨line, hline⟩ := hsome
      cases h.symm.trans hline
  · intro hmem
    cases hline : singleLine? s with
    | none => rfl
    | some line =>
      exfalso
      obtain ⟨hno, rfl | rfl⟩ := singleLine?_eq_some_iff.1 hline
      · exact hno (List.dropLast_subset _ hmem)
      · rw [List.dropLast_concat] at hmem
        exact hno hmem

end Name

namespace Authority

/-- An authority that is refused has a bracket in it, or a character that hides a delimiter. -/
theorem exists_mem_of_check {authority : List Char} {cause : AuthorityError}
    (h : check authority = .error cause) :
    ∃ c ∈ authority, c = '[' ∨ c = ']' ∨ hidesDelimiter c := by
  by_cases hopen : '[' ∈ authority
  · exact ⟨'[', hopen, Or.inl rfl⟩
  by_cases hclose : ']' ∈ authority
  · exact ⟨']', hclose, Or.inr (Or.inl rfl)⟩
  have hbrackets : checkBrackets authority = .ok () := by simp [checkBrackets, hopen, hclose]
  by_cases hhidden : ∃ c ∈ authority, hidesDelimiter c
  · obtain ⟨c, hc, hhides⟩ := hhidden
    exact ⟨c, hc, Or.inr (Or.inr hhides)⟩
  · have hany : authority.any hidesDelimiter = false := by simpa using hhidden
    rw [check, hbrackets] at h
    simp [bind, Except.bind, hany] at h
    cases h

end Authority

namespace Url

variable {s line tail : List Char} {cause : AuthorityError} {u : Url}

/-- The reading of a URL fails if and only if it has an authority that is refused. -/
theorem ofSchemeless?_eq_error_iff : ofSchemeless? s = .error cause ↔
    ∃ tail, s.filter (fun c => !isDropped c) = '/' :: '/' :: tail ∧
      Authority.check (tail.takeWhile fun c => !endsAuthority c) = .error cause := by
  have hread : ofSchemeless? s = .error cause ↔
      Authority.check (splitAuthority (s.filter fun c => !isDropped c)).1 = .error cause := by
    simp only [ofSchemeless?, bind, Except.bind]
    cases Authority.check (splitAuthority (s.filter fun c => !isDropped c)).1 with
    | error e => simp
    | ok _ => simp [pure, Except.pure]
  rw [hread]
  generalize s.filter (fun c => !isDropped c) = text
  unfold splitAuthority
  split
  · rename_i rest
    simp
  · rename_i hnot
    constructor
    · intro h
      cases h
    · rintro ⟨tail, rfl, -⟩
      exact absurd rfl (hnot tail)

/-- A final line feed does not count in a URL. -/
theorem ofSchemeless?_of_singleLine? (h : Name.singleLine? s = some line) :
    ofSchemeless? s = ofSchemeless? line := by
  obtain ⟨-, rfl | rfl⟩ := Name.singleLine?_eq_some_iff.1 h
  · rfl
  · simp [ofSchemeless?, isDropped]

end Url

namespace Name

variable {name : String} {s scheme rest line tail : List Char} {ss : List (List Char)}
  {cause : AuthorityError} {root path : AbsolutePath}

/-! ## Names that are malformed -/

/-- A web URL is malformed if its reading fails. -/
theorem webSegments_eq_malformed_iff : webSegments name line = .error (.malformed cause) ↔
    Url.ofSchemeless? line = .error cause := by
  cases hread : Url.ofSchemeless? line with
  | error e => simp [webSegments_of_error hread]
  | ok u =>
    rw [webSegments_of_ok hread]
    split
    · simp
    · split <;> simp

/-- A name is malformed by the way it is read, whatever its segments are. -/
theorem segments_eq_malformed_iff : segments name = .error (.malformed cause) ↔
    rawSegments name = .error (.malformed cause) := by
  unfold segments
  simp only [bind, Except.bind]
  cases rawSegments name with
  | error e => simp
  | ok raw =>
    simp only [reduceCtorEq, iff_false]
    split
    · simp [throw, throwThe, MonadExceptOf.throw]
    · split <;> simp [throw, throwThe, MonadExceptOf.throw, pure, Except.pure]

/-! ## Names that begin like a URL -/

/-- Behind its leading slashes, a name begins with a scheme, a colon and two slashes. -/
structure IsHierarchical (name : String) (scheme tail : List Char) : Prop extends IsScheme scheme where
  strip : strip name = scheme ++ ':' :: '/' :: '/' :: tail

theorem rawSegments_eq_ok_iff (h : IsHierarchical name scheme tail) : rawSegments name = .ok ss ↔
    if '\n' ∈ tail.dropLast then ss = pathSegments (strip name)
    else isWeb (scheme.map Char.toLower) ∧ ∃ u, Url.ofSchemeless? ('/' :: '/' :: tail) = .ok u ∧
      u.query = [] ∧ u.fragment = [] ∧ u.authority ≠ [] ∧ ss = u.authority :: pathSegments u.path := by
  have hsplit := scheme?_eq h.toIsScheme ('/' :: '/' :: tail)
  rw [← h.strip] at hsplit
  have hfeed : singleLine? ('/' :: '/' :: tail) = none ↔ '\n' ∈ tail.dropLast := by
    rw [singleLine?_eq_none_iff]
    cases tail with
    | nil => decide
    | cons c tail => simp [List.dropLast_cons_cons]
  -- A line feed before its end leaves the name without a scheme: it is a path like any other.
  by_cases hmem : '\n' ∈ tail.dropLast
  · rw [hfeed.2 hmem, Option.map_none] at hsplit
    rw [if_pos hmem, rawSegments_of_none (by simp [h.strip]) hsplit]
    exact ⟨fun heq => (Except.ok.inj heq).symm, fun heq => heq ▸ rfl⟩
  · rw [if_neg hmem]
    obtain ⟨line, hline⟩ := Option.ne_none_iff_exists'.1 (mt hfeed.1 hmem)
    rw [hline, Option.map_some] at hsplit
    rw [rawSegments_of_some hsplit, Url.ofSchemeless?_of_singleLine? hline]
    by_cases hweb : isWeb (scheme.map Char.toLower)
    · simp only [hweb, if_true, webSegments_eq_ok_iff, true_and]
    · have hslashes : ['/', '/'].isPrefixOf line := by
        rw [List.isPrefixOf_iff_prefix]
        obtain ⟨-, rfl | heq⟩ := singleLine?_eq_some_iff.1 hline
        · exact ⟨tail, rfl⟩
        · match line with
          | [] => cases heq
          | [c] => cases heq
          | c :: d :: line =>
            cases heq
            exact ⟨line, rfl⟩
      simp [hweb, hslashes]

/-- Which names that begin like a URL have a path. With a line feed before its end a name is a plain
path; without, it must be a web URL that has a host but no query and no fragment. -/
theorem locate_hierarchical_iff (h : IsHierarchical name scheme tail) (root path : AbsolutePath) :
    locate root name = .ok path ↔ ∃ ss, path = root.join (ss.map String.ofList) ∧
      (∀ s ∈ ss, isAllowed s) ∧
      if '\n' ∈ tail.dropLast then ss = pathSegments (strip name)
      else isWeb (scheme.map Char.toLower) ∧ ∃ u, Url.ofSchemeless? ('/' :: '/' :: tail) = .ok u ∧
        u.query = [] ∧ u.fragment = [] ∧ u.authority ≠ [] ∧
        ss = u.authority :: pathSegments u.path := by
  constructor
  · intro hpath
    obtain ⟨ss, hs, rfl⟩ := exists_segments_of_locate hpath
    obtain ⟨hraw, -, hallowed⟩ := segments_eq_ok_iff.1 hs
    exact ⟨ss, rfl, hallowed, (rawSegments_eq_ok_iff h).1 hraw⟩
  · rintro ⟨ss, rfl, hallowed, hss⟩
    have hne : ss ≠ [] := by
      split at hss
      · rw [hss]
        exact pathSegments_ne_nil (by simp [h.strip])
      · obtain ⟨-, u, -, -, -, -, rfl⟩ := hss
        simp
    have hsegments : segments name = .ok ss :=
      segments_eq_ok_iff.2 ⟨(rawSegments_eq_ok_iff h).2 hss, hne, hallowed⟩
    rw [locate, hsegments]
    rfl

/-- A URL of another scheme has a path if a line feed stands in it. -/
theorem locate_hierarchical_iff_ftp :
    IsHierarchical "ftp://example.com/a\nb" "ftp".toList "example.com/a\nb".toList ∧
      locate { parts := ["out"] } "ftp://example.com/a\nb" =
        .ok { parts := ["out", "ftp:", "example.com", "a\nb"] } := by
  have h : IsHierarchical "ftp://example.com/a\nb" "ftp".toList "example.com/a\nb".toList :=
    ⟨⟨by decide, List.all_eq_true.1 (by decide)⟩, by decide⟩
  refine ⟨h, (locate_hierarchical_iff h _ _).2 ⟨pathSegments (strip "ftp://example.com/a\nb"), ?_⟩⟩
  rw [if_pos (by decide)]
  exact ⟨by decide, by decide, rfl⟩

/-! ## Malformed names -/

/-- A name is a web URL on one line whose authority is refused. -/
def IsMalformed (name : String) (cause : AuthorityError) : Prop :=
  ∃ scheme rest tail, IsScheme scheme ∧ isWeb (scheme.map Char.toLower) ∧
    strip name = scheme ++ ':' :: rest ∧ '\n' ∉ rest.dropLast ∧
    rest.filter (fun c => !Url.isDropped c) = '/' :: '/' :: tail ∧
    Authority.check (tail.takeWhile fun c => !Url.endsAuthority c) = .error cause

theorem rawSegments_eq_malformed_iff :
    rawSegments name = .error (.malformed cause) ↔ IsMalformed name cause := by
  constructor
  · intro h
    cases hsplit : scheme? (strip name) with
    | none =>
      by_cases hne : strip name = []
      · rw [rawSegments_of_nil hne] at h
        cases h
      · rw [rawSegments_of_none hne hsplit] at h
        cases h
    | some split =>
      obtain ⟨scheme, line⟩ := split
      obtain ⟨hscheme, rest, hstrip, hline⟩ := exists_of_scheme? hsplit
      rw [rawSegments_of_some hsplit] at h
      split at h
      · rename_i hweb
        rw [webSegments_eq_malformed_iff, ← Url.ofSchemeless?_of_singleLine? hline,
          Url.ofSchemeless?_eq_error_iff] at h
        obtain ⟨tail, htail, hcheck⟩ := h
        refine ⟨scheme, rest, tail, hscheme, hweb, hstrip, fun hmem => ?_, htail, hcheck⟩
        cases (singleLine?_eq_none_iff.2 hmem).symm.trans hline
      · split at h <;> cases h
  · rintro ⟨scheme, rest, tail, hscheme, hweb, hstrip, hfeed, htail, hcheck⟩
    obtain ⟨line, hline⟩ := Option.ne_none_iff_exists'.1 (mt singleLine?_eq_none_iff.1 hfeed)
    have hsplit := scheme?_eq hscheme rest
    rw [← hstrip, hline, Option.map_some] at hsplit
    rw [rawSegments_of_some hsplit, if_pos hweb, webSegments_eq_malformed_iff,
      ← Url.ofSchemeless?_of_singleLine? hline]
    exact Url.ofSchemeless?_eq_error_iff.2 ⟨tail, htail, hcheck⟩

theorem locate_eq_malformed_iff :
    locate root name = .error (.malformed cause) ↔ IsMalformed name cause := by
  rw [← rawSegments_eq_malformed_iff, ← segments_eq_malformed_iff, locate]
  cases segments name <;> simp [Except.map]

/-- A malformed name has a bracket in it, or a character that hides a delimiter. -/
theorem IsMalformed.exists_mem (h : IsMalformed name cause) :
    ∃ c ∈ name.toList, c = '[' ∨ c = ']' ∨ Authority.hidesDelimiter c := by
  obtain ⟨scheme, rest, tail, -, -, hstrip, -, htail, hcheck⟩ := h
  obtain ⟨c, hc, hkind⟩ := Authority.exists_mem_of_check hcheck
  refine ⟨c, ?_, hkind⟩
  have hrest : c ∈ rest := by
    have hmem : c ∈ '/' :: '/' :: tail := by simp [(List.takeWhile_prefix _).subset hc]
    rw [← htail] at hmem
    exact List.mem_of_mem_filter hmem
  have hname : c ∈ strip name := by simp [hstrip, hrest]
  exact (List.dropWhile_suffix _).subset hname

end Name

theorem NameError.isUnsupported_eq_false_iff {e : NameError} :
    e.isUnsupported = false ↔ ∃ cause, e = .malformed cause := by
  cases e <;> simp [isUnsupported]

namespace Cache

theorem isCached_eq_some_iff {c : Cache} {name : String} {present : Bool} :
    c.isCached name = .ok (some present) ↔
      ∃ path, c.locate name = .ok path ∧ present = c.isPresent path := by
  unfold isCached
  cases c.locate name with
  | ok path => simp [eq_comm]
  | error e => by_cases he : e.isUnsupported <;> simp [he]

theorem isCached_eq_error_iff {c : Cache} {name : String} {e : NameError} :
    c.isCached name = .error e ↔ c.locate name = .error e ∧ e.isUnsupported = false := by
  unfold isCached
  cases c.locate name with
  | ok path => simp
  | error e' =>
    by_cases he : e'.isUnsupported
    · simp only [he, if_true, reduceCtorEq, Except.error.injEq, false_iff]
      rintro ⟨rfl, hno⟩
      cases he.symm.trans hno
    · simp only [he, Bool.false_eq_true, if_false, Except.error.injEq, iff_self_and]
      rintro rfl
      simpa using he

/-- The answers to whether a name is there. A malformed name gets none: the failure to read it is not a
refusal of the cache. Every other name without a path is answered by nothing, and every name with a path
by whether something is there. -/
theorem isCached_answers (c : Cache) (name : String) :
    (∀ cause, c.locate name = .error (.malformed cause) ↔ Name.IsMalformed name cause) ∧
      (∀ e, c.isCached name = .error e ↔
        ∃ cause, e = .malformed cause ∧ e.isUnsupported = false ∧ Name.IsMalformed name cause) ∧
      (c.isCached name = .ok none ↔
        (∃ e, c.locate name = .error e) ∧ ∀ cause, ¬ Name.IsMalformed name cause) ∧
      (∀ present, c.isCached name = .ok (some present) ↔
        ∃ path, c.locate name = .ok path ∧ present = c.isPresent path) ∧
      ∀ cause, Name.IsMalformed name cause →
        ∃ x ∈ name.toList, x = '[' ∨ x = ']' ∨ Authority.hidesDelimiter x := by
  have hmalformed : ∀ cause, c.locate name = .error (.malformed cause) ↔
      Name.IsMalformed name cause := fun _ => Name.locate_eq_malformed_iff
  refine ⟨hmalformed, fun e => ?_, ?_, fun present => isCached_eq_some_iff, fun cause h => h.exists_mem⟩
  · rw [isCached_eq_error_iff]
    simp only [← hmalformed]
    constructor
    · rintro ⟨hpath, hkind⟩
      obtain ⟨cause, rfl⟩ := NameError.isUnsupported_eq_false_iff.1 hkind
      exact ⟨cause, rfl, hkind, hpath⟩
    · rintro ⟨cause, rfl, hkind, hpath⟩
      exact ⟨hpath, hkind⟩
  · rw [isCached_eq_none_iff]
    simp only [← hmalformed]
    constructor
    · rintro ⟨e, hpath, hkind⟩
      refine ⟨⟨e, hpath⟩, fun cause hcause => ?_⟩
      cases hpath.symm.trans hcause
      cases hkind
    · rintro ⟨⟨e, hpath⟩, hno⟩
      refine ⟨e, hpath, ?_⟩
      by_contra hkind
      obtain ⟨cause, rfl⟩ := NameError.isUnsupported_eq_false_iff.1 (Bool.eq_false_iff.2 hkind)
      exact hno cause hpath

example : ({ root := { parts := ["out"] } } : Cache).isCached "http://[/a" =
    .error (.malformed .brackets) := by
  rfl

end Cache

end SchemaArtifacts
