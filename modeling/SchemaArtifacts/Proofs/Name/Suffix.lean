import SchemaArtifacts.Format.Label
import SchemaArtifacts.Proofs.Name.Shape
import SchemaArtifacts.Proofs.Name.Url

/-!
# Names with a suffix

The name of an artifact is the name of its namespace with a suffix. Mostly its segments are those of
the namespace with the suffix behind the last one. There are two exceptions, both for names with a
scheme. A URI that ends in a separator gets the suffix as a segment of its own. And a name whose
final line feed is lost when it is read alone has none to lose with a suffix behind it, so it is
read as a path.

## Main definitions

* `Name.IsExtension` — what is put behind names
* `Name.keepsSuffix` — the suffix goes behind the last segment
* `Name.losesLineFeed` — the name alone is read without its final line feed

## Main results

* `Name.Shape.append_of_keepsSuffix` — the segments of a name that keeps its suffix
* `Name.Shape.append_of_uri` — those of a URI that ends in a separator
* `Name.Shape.append_of_losesLineFeed` — those of a name that loses its line feed
-/

namespace SchemaArtifacts

namespace Name

open SchemaArtifacts.Path

/-- What is put behind names: a dot and more, all of it letters, digits and dots. -/
structure IsExtension (suffix : List Char) : Prop where
  dotted : ∃ c rest, suffix = '.' :: c :: rest ∧ c ≠ '.'
  plain : ∀ c ∈ suffix, c.isAlphanum || c = '.'

theorem isExtension_typeScript : IsExtension Format.typeScript.suffix.toList :=
  ⟨⟨'d', ['.', 't', 's'], rfl, by decide⟩, List.all_eq_true.1 (by decide)⟩

theorem isExtension_javaScript : IsExtension Format.javaScript.suffix.toList :=
  ⟨⟨'j', ['s'], rfl, by decide⟩, List.all_eq_true.1 (by decide)⟩

theorem isExtension_of_format {format : Format} (h : format = .typeScript ∨ format = .javaScript) :
    IsExtension format.suffix.toList := by
  rcases h with rfl | rfl
  · exact isExtension_typeScript
  · exact isExtension_javaScript

/-- The name alone is read without its final line feed. -/
def losesLineFeed (name : List Char) : Bool :=
  (scheme? name).isSome && name.getLast? = some '\n'

/-- With a suffix, the name is read as without, and the suffix goes behind the last segment. -/
def keepsSuffix (name : List Char) : Bool :=
  match scheme? name with
  | none => true
  | some (scheme, line) =>
    name.getLast? ≠ some '\n' &&
      (isWeb (scheme.map Char.toLower) || line.getLast?.any fun c => c ≠ ':' && c ≠ '/')

variable {suffix name scheme line : List Char}

theorem IsExtension.ne_nil (h : IsExtension suffix) : suffix ≠ [] := by
  obtain ⟨c, rest, rfl, -⟩ := h.dotted
  simp

theorem IsExtension.not_mem (h : IsExtension suffix) {d : Char}
    (hd : (d.isAlphanum || d = '.') = false) : d ∉ suffix := by
  intro hmem
  rw [h.plain d hmem] at hd
  cases hd

theorem scheme?_eq_some (h : scheme? name = some (scheme, line)) :
    '\n' ∉ line ∧ ':' ∉ scheme ∧
      (name = scheme ++ ':' :: line ∨ name = scheme ++ ':' :: (line ++ ['\n'])) := by
  obtain ⟨hscheme, rest, rfl, hrest⟩ := exists_of_scheme? h
  have hcolon : ':' ∉ scheme := fun hmem => absurd (hscheme.chars ':' hmem) (by decide)
  obtain ⟨hline, rfl | rfl⟩ := singleLine?_eq_some_iff.1 hrest
  · exact ⟨hline, hcolon, Or.inl rfl⟩
  · exact ⟨hline, hcolon, Or.inr rfl⟩

theorem singleLine?_append (h : IsExtension suffix) (rest : List Char) :
    singleLine? (rest ++ suffix) =
      if '\n' ∈ rest then none else some (rest ++ suffix) := by
  have hno : '\n' ∉ suffix := h.not_mem (by decide)
  unfold singleLine?
  rw [Text.cut?_append hno]
  cases hcut : Text.cut? '\n' rest with
  | none => simp [Text.cut?_eq_none_iff.1 hcut]
  | some parts =>
    obtain ⟨line, more⟩ := parts
    obtain ⟨rfl, -⟩ := Text.cut?_eq_some_iff.1 hcut
    cases hmore : more ++ suffix with
    | nil => exact absurd (List.append_eq_nil_iff.1 hmore).2 h.ne_nil
    | cons c rest => simp [hmore]

/-- A suffix does not make a path a name with a scheme. -/
theorem scheme?_append_of_none (h : IsExtension suffix) (hn : scheme? name = none) :
    scheme? (name ++ suffix) = none := by
  have hno : ':' ∉ suffix := h.not_mem (by decide)
  unfold scheme? at hn ⊢
  rw [Text.cut?_append hno]
  cases hcut : Text.cut? ':' name with
  | none => rfl
  | some parts =>
    obtain ⟨scheme, rest⟩ := parts
    rw [hcut] at hn
    dsimp only [Option.map_some] at hn ⊢
    split
    · rename_i hok
      rw [if_pos hok, Option.map_eq_none_iff] at hn
      rw [singleLine?_append h, if_pos, Option.map_none]
      by_contra hmem
      unfold singleLine? at hn
      rw [Text.cut?_eq_none_iff.2 hmem] at hn
      cases hn
    · rfl

theorem getLast?_concat_cons_append (a b : List Char) (c : Char) :
    (a ++ c :: (b ++ ['\n'])).getLast? = some '\n' := by
  rw [← List.cons_append, ← List.append_assoc, List.getLast?_concat]

/-- A name with a scheme keeps it with a suffix, unless it has lost a line feed. -/
theorem scheme?_append_of_some (h : IsExtension suffix) (hs : scheme? name = some (scheme, line)) :
    scheme? (name ++ suffix) =
      if name.getLast? = some '\n' then none else some (scheme, line ++ suffix) := by
  have hno : ':' ∉ suffix := h.not_mem (by decide)
  obtain ⟨hline, hscheme, hname⟩ := scheme?_eq_some hs
  have hok : scheme.head?.any Char.isAlpha && scheme.all isSchemeChar := by
    by_contra hnot
    have hcut (rest : List Char) : Text.cut? ':' (scheme ++ ':' :: rest) = some (scheme, rest) :=
      Text.cut?_eq_some_iff.2 ⟨rfl, hscheme⟩
    rcases hname with rfl | rfl <;> simp [scheme?, hcut, hnot] at hs
  have hread (rest : List Char) : scheme? (scheme ++ ':' :: rest ++ suffix) =
      if '\n' ∈ rest then none else some (scheme, rest ++ suffix) := by
    have hcut : Text.cut? ':' (scheme ++ ':' :: rest ++ suffix) = some (scheme, rest ++ suffix) :=
      Text.cut?_eq_some_iff.2 ⟨by simp, hscheme⟩
    unfold scheme?
    rw [hcut]
    dsimp only
    rw [if_pos hok, singleLine?_append h]
    split <;> rfl
  rcases hname with rfl | rfl
  · rw [hread, if_neg hline, if_neg]
    intro hlast
    have hmem := List.mem_of_getLast? hlast
    rcases List.mem_append.1 hmem with hmem | hmem
    · have := (scheme_ok hs).2 _ hmem
      revert this
      decide
    · rcases List.mem_cons.1 hmem with hmem | hmem
      · cases hmem
      · exact hline hmem
  · rw [hread, if_pos (by simp), if_pos (getLast?_concat_cons_append _ _ _)]

/-! ## Each shape with a suffix -/

theorem leaf_append (h : IsExtension suffix) {last : List Char} (hd : isDots last = false) :
    leaf (last ++ suffix) = leaf last ++ suffix := by
  obtain ⟨c, rest, rfl, hc⟩ := h.dotted
  cases last with
  | nil => simp [leaf, isDots, hc]
  | cons x xs =>
    by_cases hx : x = '.'
    · subst hx
      have hlong : isDots ('.' :: (xs ++ '.' :: c :: rest)) = false := by
        cases xs <;> simp [isDots]
      simp [leaf, hd, hlong]
    · simp [leaf, hx]

theorem pathSegments_append (h : IsExtension suffix) {path : List Char} (hne : path ≠ [])
    (hd : ∀ s ∈ pathSegments path, isAllowed s) :
    pathSegments (path ++ suffix) = suffixed suffix (pathSegments path) := by
  have hno : '/' ∉ suffix := h.not_mem (by decide)
  have hget : (Text.cutLast? '/' (path ++ suffix)).getD ([], path ++ suffix) =
      (((Text.cutLast? '/' path).getD ([], path)).1,
        ((Text.cutLast? '/' path).getD ([], path)).2 ++ suffix) := by
    rw [Text.cutLast?_append hno]
    cases Text.cutLast? '/' path <;> rfl
  unfold pathSegments at hd ⊢
  rw [hget]
  generalize (Text.cutLast? '/' path).getD ([], path) = parts at hd ⊢
  obtain ⟨dirs, last⟩ := parts
  have hempty : (path ++ suffix).isEmpty = false := by simp [hne]
  have hempty' : path.isEmpty = false := by simp [hne]
  simp only [hempty, hempty', Bool.false_eq_true, ↓reduceIte] at hd ⊢
  -- A last part of dots would be a segment as it is, and no such segment is allowed.
  have hlast : isDots last = false := by
    by_contra hdots
    simp only [Bool.not_eq_false] at hdots
    have hleaf : leaf last = last := by
      cases last with
      | nil => cases hdots
      | cons x xs => simp [leaf, hdots]
    obtain ⟨h1, h2⟩ := not_isDots_of_isAllowed (hd (leaf last) (by simp))
    rw [hleaf] at h1 h2
    simp [isDots, h1, h2] at hdots
  rw [leaf_append h hlast, suffixed_concat]

theorem filter_isDropped_append (h : IsExtension suffix) (s : List Char) :
    (s ++ suffix).filter (fun c => !Url.isDropped c) =
      s.filter (fun c => !Url.isDropped c) ++ suffix := by
  rw [List.filter_append]
  congr 1
  refine List.filter_eq_self.2 fun c hc => ?_
  rw [Bool.not_eq_true']
  by_contra hdrop
  have := h.plain c hc
  simp only [Url.isDropped, Bool.not_eq_false, Bool.or_eq_true, decide_eq_true_eq] at hdrop
  rcases hdrop with (rfl | rfl) | rfl <;> revert this <;> decide

theorem IsExtension.not_endsAuthority (h : IsExtension suffix) :
    ∀ c ∈ suffix, Url.endsAuthority c = false := by
  intro c hc
  have hplain := h.plain c hc
  by_contra hend
  simp only [Url.endsAuthority, Bool.not_eq_false, Bool.or_eq_true, decide_eq_true_eq] at hend
  rcases hend with (rfl | rfl) | rfl <;> revert hplain <;> decide

theorem suffixed_cons {part : List Char} {parts : List (List Char)} (h : parts ≠ []) :
    suffixed suffix (part :: parts) = part :: suffixed suffix parts := by
  obtain ⟨init, last, rfl⟩ := (List.eq_nil_or_concat' parts).resolve_left h
  rw [← List.cons_append, suffixed_concat, suffixed_concat, List.cons_append]

theorem pathSegments_ne_nil {path : List Char} (h : path ≠ []) : pathSegments path ≠ [] := by
  simp [pathSegments, h]

variable {ss ss' : List (List Char)}

/-- The segments of a URL with a suffix. -/
theorem webSegments_append (hs : IsExtension suffix) {url url' : Url}
    (read : Url.ofSchemeless? line = .ok url) (read' : Url.ofSchemeless? (line ++ suffix) = .ok url')
    (accepted : url.query = [] ∧ url.fragment = [] ∧ url.authority ≠ [])
    (accepted' : url'.query = [] ∧ url'.fragment = [] ∧ url'.authority ≠ [])
    (allowed : ∀ s ∈ pathSegments url.path, isAllowed s) :
    url'.authority :: pathSegments url'.path =
      suffixed suffix (url.authority :: pathSegments url.path) := by
  obtain ⟨tail, hspells⟩ := Url.exists_spells read accepted.2.2 accepted.1 accepted.2.1
  obtain ⟨tail', hspells'⟩ := Url.exists_spells read' accepted'.2.2 accepted'.1 accepted'.2.1
  rw [filter_isDropped_append hs] at hspells'
  obtain ⟨-, ⟨hp, hauth, hp'⟩ | ⟨hp, hauth, hp'⟩⟩ :=
    hspells.append hspells' hs.not_endsAuthority hs.ne_nil
  · rw [hp, hp', hauth]
    exact (suffixed_concat suffix url.authority []).symm
  · rw [hp', hauth, pathSegments_append hs hp allowed, suffixed_cons (pathSegments_ne_nil hp)]

theorem IsExtension.not_separator (h : IsExtension suffix) :
    ∀ c ∈ suffix, (c = ':' || c = '/' : Bool) = false := by
  intro c hc
  by_contra hsep
  simp only [Bool.not_eq_false, Bool.or_eq_true, decide_eq_true_eq] at hsep
  rcases hsep with rfl | rfl
  · exact h.not_mem (by decide) hc
  · exact h.not_mem (by decide) hc

theorem getLast?_any_iff {line : List Char} :
    (line.getLast?.any fun c => c ≠ ':' && c ≠ '/') ↔
      ¬ line.getLast?.all fun c => c = ':' || c = '/' := by
  cases line.getLast? <;> simp

/-- The pieces of what stands behind a scheme, with a suffix. -/
theorem pieces_append (hs : IsExtension suffix) (line : List Char) :
    Text.pieces (fun c => c = ':' || c = '/') (line ++ suffix) =
      if line.getLast?.any fun c => c ≠ ':' && c ≠ '/' then
        suffixed suffix (Text.pieces (fun c => c = ':' || c = '/') line)
      else Text.pieces (fun c => c = ':' || c = '/') line ++ [suffix] := by
  obtain ⟨before, last, -, hempty, happ⟩ :=
    Text.exists_last_piece (fun c => c = ':' || c = '/') line
  have hbare := happ [] (by simp)
  rw [List.append_nil, List.append_nil] at hbare
  rw [happ suffix hs.not_separator, hbare, if_neg (by simp [hs.ne_nil])]
  by_cases hl : last = []
  · rw [if_neg fun hany => getLast?_any_iff.1 hany (hempty.1 hl), if_pos hl, hl, List.append_nil,
      List.nil_append]
  · rw [if_pos (getLast?_any_iff.2 (mt hempty.2 hl)), if_neg hl, suffixed_concat]

theorem pieces_ne_nil (h : line.getLast?.any fun c => c ≠ ':' && c ≠ '/') :
    Text.pieces (fun c => c = ':' || c = '/') line ≠ [] := by
  obtain ⟨before, last, -, hempty, happ⟩ :=
    Text.exists_last_piece (fun c => c = ':' || c = '/') line
  have hbare := happ [] (by simp)
  have hl : last ≠ [] := fun hl => getLast?_any_iff.1 h (hempty.1 hl)
  rw [List.append_nil, List.append_nil, if_neg hl] at hbare
  rw [hbare]
  simp

/-- With a suffix, a name that keeps it has the segments it has without, the suffix behind the last
of them. -/
theorem Shape.append_of_keepsSuffix (hs : IsExtension suffix) (hne : name ≠ [])
    (h : Shape name ss) (h' : Shape (name ++ suffix) ss') (allowed : ∀ s ∈ ss, isAllowed s)
    (hk : keepsSuffix name) : ss' = suffixed suffix ss := by
  cases h with
  | path plain =>
    have hplain := scheme?_append_of_none hs plain
    rw [h'.eq_of_path hplain]
    exact pathSegments_append hs hne allowed
  | web scheme line url split isWeb read query fragment host =>
    have hsplit := scheme?_append_of_some hs split
    simp only [keepsSuffix, split, Bool.and_eq_true, decide_eq_true_eq] at hk
    rw [if_neg hk.1] at hsplit
    obtain ⟨url', read', accepted', rfl⟩ := h'.exists_of_web hsplit isWeb
    exact webSegments_append hs read read' ⟨query, fragment, host⟩ accepted'
      fun s hmem => allowed s (List.mem_cons_of_mem _ hmem)
  | uri scheme line split other =>
    have hsplit := scheme?_append_of_some hs split
    simp only [keepsSuffix, split, other, Bool.false_or, Bool.and_eq_true, decide_eq_true_eq] at hk
    rw [if_neg hk.1] at hsplit
    rw [h'.eq_of_uri hsplit other, pieces_append hs, if_pos hk.2,
      suffixed_cons (pieces_ne_nil hk.2)]

/-- With a suffix, a URI that ends in a separator has the suffix as one more segment. -/
theorem Shape.append_of_uri (hs : IsExtension suffix) (h : Shape name ss)
    (h' : Shape (name ++ suffix) ss') (hk : keepsSuffix name = false)
    (hl : losesLineFeed name = false) : ss' = ss ++ [suffix] := by
  cases h with
  | path plain => simp [keepsSuffix, plain] at hk
  | web scheme line url split isWeb =>
    simp only [losesLineFeed, split, Option.isSome_some, Bool.true_and,
      decide_eq_false_iff_not] at hl
    simp [keepsSuffix, split, isWeb, hl] at hk
  | uri scheme line split other =>
    simp only [losesLineFeed, split, Option.isSome_some, Bool.true_and,
      decide_eq_false_iff_not] at hl
    simp only [keepsSuffix, split, other, Bool.false_or, Bool.and_eq_false_iff,
      decide_eq_false_iff_not, not_not, hl, false_or] at hk
    have hsplit := scheme?_append_of_some hs split
    rw [if_neg hl] at hsplit
    rw [h'.eq_of_uri hsplit other, pieces_append hs, if_neg (by rw [hk]; exact Bool.false_ne_true),
      List.cons_append]

/-- With a suffix, a name that loses its line feed is read as a path. -/
theorem Shape.append_of_losesLineFeed (hs : IsExtension suffix)
    (h' : Shape (name ++ suffix) ss') (hl : losesLineFeed name) :
    ss' = pathSegments (name ++ suffix) := by
  simp only [losesLineFeed, Bool.and_eq_true, Option.isSome_iff_exists, Prod.exists,
    decide_eq_true_eq] at hl
  obtain ⟨⟨scheme, line, split⟩, hlast⟩ := hl
  have hsplit := scheme?_append_of_some hs split
  rw [if_pos hlast] at hsplit
  exact h'.eq_of_path hsplit

end Name
end SchemaArtifacts
