import Mathlib.Data.List.Basic
import SchemaArtifacts.Name.Url

/-!
# How a URL is spelled

A web URL that is accepted as a name is, but for the characters that it loses and the marks of an
empty query or fragment, two slashes, its authority and its path. The authority goes as far as it
can, so text behind a URL belongs to its path, or to its authority if it has no path.

## Main definitions

* `Url.Spells` — a text is spelled by the parts of a URL

## Main results

* `Url.exists_spells` — an accepted URL spells its text
* `Url.Spells.exists_end` — the end of an accepted URL is that of its path, or of its host
* `Url.Spells.append` — a URL with a text behind it
-/

namespace SchemaArtifacts.Url

/-- Before an empty query or fragment nothing but its mark is cut off. -/
theorem cutOff_of_empty {c : Char} {s : List Char} (h : (cutOff c s).2 = []) :
    c ∉ (cutOff c s).1 ∧ ∃ tail, (∀ x ∈ tail, x = c) ∧ s = (cutOff c s).1 ++ tail := by
  unfold cutOff at h ⊢
  cases hcut : Text.cut? c s with
  | none => exact ⟨Text.cut?_eq_none_iff.1 hcut, [], by simp, by simp⟩
  | some parts =>
    obtain ⟨a, b⟩ := parts
    obtain ⟨rfl, ha⟩ := Text.cut?_eq_some_iff.1 hcut
    rw [hcut] at h
    obtain rfl : b = [] := h
    exact ⟨ha, [c], by simp, rfl⟩

/-- A text with an authority begins with two slashes, and the authority goes as far as it can. -/
theorem of_splitAuthority {text authority rest : List Char}
    (h : splitAuthority text = (authority, rest)) (hne : authority ≠ []) :
    text = '/' :: '/' :: (authority ++ rest) ∧ (rest = [] ∨ rest.head?.any endsAuthority) := by
  unfold splitAuthority at h
  split at h
  · rename_i more
    cases h
    refine ⟨by rw [List.takeWhile_append_dropWhile], ?_⟩
    have hstop := List.head?_dropWhile_not (fun c => !endsAuthority c) more
    cases hd : more.dropWhile (fun c => !endsAuthority c) with
    | nil => exact Or.inl rfl
    | cons c cs =>
      rw [hd] at hstop
      exact Or.inr (by simpa using hstop)
  · cases h
    exact absurd rfl hne

/-- The text of a URL, without what it loses, from its parts: an empty query or fragment may still
have its mark. -/
structure Spells (url : Url) (text tail : List Char) : Prop where
  text_eq : text = '/' :: '/' :: (url.authority ++ (url.path ++ tail))
  authority : ∀ c ∈ url.authority, endsAuthority c = false
  path : url.path ++ tail = [] ∨ (url.path ++ tail).head?.any endsAuthority
  path_plain : '?' ∉ url.path ∧ '#' ∉ url.path
  tail_marks : ∀ c ∈ tail, c = '?' ∨ c = '#'

theorem exists_spells {line : List Char} {url : Url} (h : ofSchemeless? line = .ok url)
    (hhost : url.authority ≠ []) (hq : url.query = []) (hf : url.fragment = []) :
    ∃ tail, Spells url (line.filter fun c => !isDropped c) tail := by
  simp only [ofSchemeless?, bind, Except.bind] at h
  split at h
  · cases h
  · generalize line.filter (fun c => !isDropped c) = text at h ⊢
    rcases hsplit : splitAuthority text with ⟨authority, rest⟩
    rw [hsplit] at h
    cases h
    dsimp only at hhost hq hf ⊢
    obtain ⟨hhash, tail, htail, hrest⟩ := cutOff_of_empty hf
    obtain ⟨hmark, tail', htail', hpath⟩ := cutOff_of_empty hq
    have hrest' : rest = (cutOff '?' (cutOff '#' rest).1).1 ++ (tail' ++ tail) := by
      rw [← List.append_assoc, ← hpath, ← hrest]
    obtain ⟨htext, hstop⟩ := of_splitAuthority hsplit hhost
    rw [hrest'] at htext hstop
    refine ⟨tail' ++ tail, htext, fun c hc => ?_, hstop, ⟨hmark, fun hmem => hhash ?_⟩, ?_⟩
    · exact endsAuthority_of_mem_splitAuthority (s := text) (by rwa [hsplit])
    · rw [hpath]
      exact List.mem_append_left _ hmem
    · intro c hc
      exact (List.mem_append.1 hc).imp (htail' c) (htail c)

/-- A text has one longest start without certain characters. -/
theorem append_inj_of_stop {p : Char → Bool} {a b a' b' : List Char} (h : a ++ b = a' ++ b')
    (ha : ∀ c ∈ a, p c = false) (ha' : ∀ c ∈ a', p c = false) (hb : b = [] ∨ b.head?.any p)
    (hb' : b' = [] ∨ b'.head?.any p) : a = a' ∧ b = b' := by
  induction a generalizing a' with
  | nil =>
    cases a' with
    | nil => exact ⟨rfl, h⟩
    | cons c a' =>
      obtain rfl : b = c :: (a' ++ b') := h
      have hc := ha' c (by simp)
      simp [hc] at hb
  | cons c a ih =>
    cases a' with
    | nil =>
      obtain rfl : b' = c :: (a ++ b) := h.symm
      have hc := ha c (by simp)
      simp [hc] at hb'
    | cons c' a' =>
      rw [List.cons_append, List.cons_append, List.cons.injEq] at h
      obtain ⟨rfl, h⟩ := h
      obtain ⟨rfl, rfl⟩ := ih h (fun x hx => ha x (by simp [hx])) fun x hx => ha' x (by simp [hx])
      exact ⟨rfl, rfl⟩

/-- The marks of an empty query or fragment would stand at the end, where a suffix without them is. -/
theorem Spells.tail_eq_nil {text tail suffix : List Char} {url : Url}
    (h : Spells url (text ++ suffix) tail) (hplain : ∀ c ∈ suffix, endsAuthority c = false)
    (hne : suffix ≠ []) : tail = [] := by
  by_contra hmark
  have hlast := congrArg List.getLast? h.text_eq
  rw [← List.append_assoc, ← List.cons_append, ← List.cons_append,
    List.getLast?_append_of_ne_nil _ hne, List.getLast?_append_of_ne_nil _ hmark,
    List.getLast?_eq_some_getLast hne, List.getLast?_eq_some_getLast hmark,
    Option.some.injEq] at hlast
  have hends := hplain _ (List.getLast_mem hne)
  rw [hlast] at hends
  rcases h.tail_marks _ (List.getLast_mem hmark) with hc | hc <;>
    rw [hc] at hends <;> exact absurd hends (by decide)

/-- A suffix of the text is one of the path, or of the host if there is no path. -/
theorem Spells.exists_end {text tail suffix : List Char} {url : Url}
    (h : Spells url (text ++ suffix) tail) (hplain : ∀ c ∈ suffix, endsAuthority c = false)
    (hne : suffix ≠ []) :
    (url.path = [] ∧ suffix <:+ url.authority) ∨ suffix <:+ url.path := by
  have htail := h.tail_eq_nil hplain hne
  have hend : suffix <:+ '/' :: '/' :: (url.authority ++ url.path) :=
    ⟨text, by rw [h.text_eq, htail, List.append_nil]⟩
  cases hp : url.path with
  | nil =>
    rw [hp, List.append_nil] at hend
    have hbehind : ∀ {rest : List Char}, suffix <:+ '/' :: rest → suffix <:+ rest := by
      intro rest hrest
      refine (List.suffix_cons_iff.1 hrest).resolve_left fun heq => ?_
      exact absurd (hplain '/' (heq ▸ List.mem_cons_self)) (by decide)
    exact .inl ⟨rfl, hbehind (hbehind hend)⟩
  | cons c path =>
    have hstop : endsAuthority c := by
      have hpath := h.path
      rw [hp] at hpath
      simpa using hpath
    have hwhole : c :: path <:+ '/' :: '/' :: (url.authority ++ url.path) :=
      ⟨'/' :: '/' :: url.authority, by rw [hp]; rfl⟩
    refine .inr ((List.suffix_or_suffix_of_suffix hend hwhole).resolve_right fun hlonger => ?_)
    rw [hplain c (hlonger.subset List.mem_cons_self)] at hstop
    cases hstop

/-- What two URLs are made of, one of them with a suffix behind the other's text. -/
theorem Spells.parts_append {text tail tail' suffix : List Char} {url url' : Url}
    (h : Spells url text tail) (h' : Spells url' (text ++ suffix) tail') :
    url.authority ++ (url.path ++ tail ++ suffix) = url'.authority ++ (url'.path ++ tail') := by
  have heq := h'.text_eq
  rw [h.text_eq] at heq
  simpa using heq

/-- Nor does an empty query or fragment leave its mark before such a suffix: the mark would be in the
other URL's authority or path. -/
theorem Spells.tail_eq_nil_of_append {text tail suffix : List Char} {url url' : Url}
    (h : Spells url text tail) (h' : Spells url' (text ++ suffix) []) : tail = [] := by
  refine List.eq_nil_iff_forall_not_mem.2 fun c hc => ?_
  have hmem : c ∈ url'.authority ++ (url'.path ++ []) := by
    rw [← h.parts_append h']
    simp [hc]
  rw [List.append_nil] at hmem
  rcases List.mem_append.1 hmem with hmem | hmem
  · have hends := h'.authority c hmem
    rcases h.tail_marks c hc with rfl | rfl <;> exact absurd hends (by decide)
  · rcases h.tail_marks c hc with rfl | rfl
    · exact h'.path_plain.1 hmem
    · exact h'.path_plain.2 hmem

/-- A web URL with a suffix has the suffix behind its path, or behind its host if it has no path. -/
theorem Spells.append {text tail tail' suffix : List Char} {url url' : Url}
    (h : Spells url text tail) (h' : Spells url' (text ++ suffix) tail')
    (hplain : ∀ c ∈ suffix, endsAuthority c = false) (hne : suffix ≠ []) :
    tail = [] ∧ (url.path = [] ∧ url'.authority = url.authority ++ suffix ∧ url'.path = [] ∨
      url.path ≠ [] ∧ url'.authority = url.authority ∧ url'.path = url.path ++ suffix) := by
  obtain rfl : tail' = [] := h'.tail_eq_nil hplain hne
  obtain rfl : tail = [] := h.tail_eq_nil_of_append h'
  have heq := h.parts_append h'
  have hpath := h.path
  have hpath' := h'.path
  rw [List.append_nil] at hpath hpath'
  rw [List.append_nil, List.append_nil] at heq
  refine ⟨rfl, ?_⟩
  -- Both authorities go as far as they can, so they end at the same place of the one text.
  by_cases hp : url.path = []
  · left
    rw [hp, List.nil_append] at heq
    obtain ⟨hauth, hnil⟩ := append_inj_of_stop (b := []) (by simpa using heq)
      (fun c hc => (List.mem_append.1 hc).elim (h.authority c) (hplain c)) h'.authority
      (Or.inl rfl) hpath'
    exact ⟨hp, hauth.symm, hnil.symm⟩
  · right
    have hstop : (url.path ++ suffix).head?.any endsAuthority := by
      rw [List.head?_append_of_ne_nil _ hp]
      exact hpath.resolve_left hp
    obtain ⟨hauth, hrest⟩ := append_inj_of_stop heq h.authority h'.authority (Or.inr hstop) hpath'
    exact ⟨hp, hauth.symm, hrest.symm⟩

end SchemaArtifacts.Url
