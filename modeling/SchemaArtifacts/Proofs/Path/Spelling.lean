import Mathlib.Data.List.Basic
import SchemaArtifacts.Name.Segments
import SchemaArtifacts.Proofs.Path.Lexical

/-!
# How the way to a module is spelled

The way from a directory to a module shows what it is by its first component, and what it leads to by
its last one. It begins with a dot part if it goes up, and is given one if it goes down, unless the
first component on the way down begins with a dot itself. It ends with the name of the module, unless
the module with its marker is the directory or one above it: then it is made of dot parts only.
Whatever it looks like, no other module has the same way.

## Main definitions

* `Path.IsExplicit` — a path that begins with a dot part and goes on
* `Path.lastComponent` — what stands behind the last slash
* `Path.IsHiddenBelow` — a path that leads down through a component beginning with a dot
* `Path.IsModule` — where a path leads, without the marker and with it

## Main results

* `Path.lastComponent_moduleSpecifier`, `Path.isDots_lastComponent_moduleSpecifier` — what the way to
  a module ends with
* `Path.isExplicit_moduleSpecifier_iff`, `Path.isExplicit_moduleSpecifier_above_iff` — when it begins
  with a dot part
* `Path.eq_of_moduleSpecifier_eq` — two modules with the same way are one
-/

namespace SchemaArtifacts.Path

open Name (isDots)

variable {ps : List (List Char)} {p q : List Char}

/-- A path that begins with a dot part and goes on. -/
def IsExplicit (s : List Char) : Prop := ['.', '/'] <+: s ∨ ['.', '.', '/'] <+: s

instance : DecidablePred IsExplicit := fun s =>
  inferInstanceAs (Decidable (['.', '/'] <+: s ∨ ['.', '.', '/'] <+: s))

/-- What stands behind the last slash. -/
def lastComponent (s : List Char) : List Char := (s.splitOn '/').getLastD []

/-- A path leads down from a directory, first through a component that begins with a dot. -/
def IsHiddenBelow (dir path : List (List Char)) : Prop :=
  ∃ first rest, path = dir ++ first :: rest ∧ first.head? = some '.'

theorem IsClean.isDots_eq_false (h : IsClean p) : isDots p = false := by
  simp [isDots, h.ne_dot, h.ne_dots]

/-! ## The ends of a text -/

theorem lastComponent_append (s : List Char) (h : '/' ∉ p) : lastComponent (s ++ '/' :: p) = p := by
  rw [lastComponent, List.splitOn_append_cons_self, List.splitOn_eq_singleton h,
    List.getLastD_concat]

theorem lastComponent_suffix (s : List Char) : lastComponent s <:+ s := by
  cases hcut : Text.cutLast? '/' s with
  | none =>
    rw [lastComponent, List.splitOn_eq_singleton (Text.cutLast?_eq_none_iff.1 hcut)]
    exact List.suffix_refl s
  | some parts =>
    obtain ⟨hs, hlast⟩ := Text.cutLast?_eq_some_iff.1 hcut
    rw [hs, lastComponent_append _ hlast]
    exact ⟨parts.1 ++ ['/'], by simp⟩

theorem lastComponent_intercalate (h : ∀ q ∈ ps ++ [p], '/' ∉ q) :
    lastComponent (['/'].intercalate (ps ++ [p])) = p := by
  rw [lastComponent, List.splitOn_intercalate '/' h (by simp), List.getLastD_concat]

theorem lastComponent_visiblyRelative (s : List Char) :
    lastComponent (visiblyRelative s) = lastComponent s := by
  unfold visiblyRelative
  split
  · rfl
  · have hsplit : ('.' :: '/' :: s).splitOn '/' = ['.'] :: s.splitOn '/' :=
      List.splitOn_append_cons_self ['.'] s
    obtain ⟨init, last, hs⟩ :=
      (List.eq_nil_or_concat' (s.splitOn '/')).resolve_left (List.splitOn_ne_nil '/' s)
    rw [lastComponent, lastComponent, hsplit, hs, ← List.cons_append, List.getLastD_concat,
      List.getLastD_concat]

theorem append_slash_prefix_iff (rest : List Char) (hq : '/' ∉ q) (hp : '/' ∉ p) :
    q ++ ['/'] <+: p ++ '/' :: rest ↔ q = p := by
  constructor
  · rintro ⟨more, htext⟩
    have hcut := Text.cut?_eq_some_iff.2 ⟨htext.symm.trans (List.append_cons q '/' more).symm, hq⟩
    rw [Text.cut?_eq_some_iff.2 ⟨rfl, hp⟩] at hcut
    exact (Prod.ext_iff.1 (Option.some_inj.1 hcut)).1.symm
  · rintro rfl
    exact ⟨rest, (List.append_cons q '/' rest).symm⟩

/-- Whether a path is explicit can be seen from its components. -/
theorem isExplicit_intercalate_iff (hp : '/' ∉ p) :
    IsExplicit (['/'].intercalate (p :: ps)) ↔ isDots p ∧ ps ≠ [] := by
  cases ps with
  | nil =>
    rw [List.intercalate_singleton, IsExplicit, iff_false_right (by simp), not_or]
    exact ⟨fun hdot => hp (hdot.subset (by simp)), fun hdots => hp (hdots.subset (by simp))⟩
  | cons next ps =>
    rw [List.intercalate_cons_cons, List.append_assoc, List.singleton_append, IsExplicit]
    have hdot := append_slash_prefix_iff (q := ['.']) (['/'].intercalate (next :: ps)) (by decide) hp
    have hdots := append_slash_prefix_iff (q := ['.', '.']) (['/'].intercalate (next :: ps))
      (by decide) hp
    rw [List.singleton_append] at hdot
    rw [List.cons_append, List.singleton_append] at hdots
    rw [hdot, hdots]
    simp [isDots, eq_comm (a := p)]

theorem isExplicit_visiblyRelative_iff (hne : p ≠ []) (hp : '/' ∉ p) :
    IsExplicit (visiblyRelative (['/'].intercalate (p :: ps))) ↔
      (p.head? = some '.' → isDots p ∧ ps ≠ []) := by
  obtain ⟨c, p, rfl⟩ := List.exists_cons_of_ne_nil hne
  have hslash : c ≠ '/' := fun heq => hp (heq ▸ List.mem_cons_self)
  unfold visiblyRelative
  by_cases hdot : c = '.'
  · rw [if_pos (by simp [hdot]), isExplicit_intercalate_iff hp]
    simp [hdot]
  · rw [if_neg (by simp [hdot, hslash])]
    simp [hdot, IsExplicit]

/-! ## The way to a module -/

/-- A path leads to a module by clean components, the marker behind the last of them. -/
structure IsModule (path : List Char) (above : List (List Char)) (last : List Char) : Prop where
  leads : normal path = above ++ [last]
  marked : normal (path ++ marker) = above ++ [last ++ marker]
  above_clean : ∀ p ∈ above, IsClean p
  last_clean : IsClean last

variable {target target' dir last last' : List Char} {above above' : List (List Char)}

/-- Unless the module with the marker is the directory or above it, the way ends with the module. -/
theorem lastComponent_moduleSpecifier (h : IsModule target above last)
    (hbeside : ¬ normal (target ++ marker) <+: normal dir) :
    lastComponent (moduleSpecifier target dir) = last := by
  rw [h.marked] at hbeside
  have hway := not_mem_moduleWay h.above_clean h.last_clean (normal dir)
  rw [moduleSpecifier_beside h.marked hbeside, lastComponent_visiblyRelative]
  rw [moduleWay, ← List.append_assoc] at hway ⊢
  exact lastComponent_intercalate hway

/-- Otherwise the way ends with a dot part. -/
theorem isDots_lastComponent_moduleSpecifier (h : normal (target ++ marker) <+: normal dir) :
    isDots (lastComponent (moduleSpecifier target dir)) := by
  rw [moduleSpecifier_above h]
  split
  · rfl
  · rename_i hne
    have hle := h.length_le
    obtain ⟨n, hn⟩ :
        ∃ n, (normal dir).length - (normal (target ++ marker)).length = n + 1 :=
      Nat.exists_eq_add_one.2 (by omega)
    have hslash := not_mem_replicate_dots (n + 1)
    rw [hn]
    rw [List.replicate_succ'] at hslash ⊢
    rw [lastComponent_intercalate hslash]
    rfl

/-- The way begins with a dot part unless it leads down through a component that begins with a dot. -/
theorem isExplicit_moduleSpecifier_iff (h : IsModule target above last)
    (hbeside : ¬ normal (target ++ marker) <+: normal dir) :
    IsExplicit (moduleSpecifier target dir) ↔ ¬ IsHiddenBelow (normal dir) (normal target) := by
  rw [h.marked] at hbeside
  rw [moduleSpecifier_beside h.marked hbeside, h.leads]
  by_cases hdown : normal dir <+: above
  · obtain ⟨rest, rfl⟩ := hdown
    have hway : moduleWay (normal dir) (normal dir ++ rest) last = rest ++ [last] := by
      have hshared : sharedLength (normal dir) (normal dir ++ (rest ++ [last ++ marker])) =
          (normal dir).length := by
        simpa [sharedLength] using sharedLength_append (normal dir) [] (rest ++ [last ++ marker])
      simp [moduleWay, hshared]
    obtain ⟨first, more, hfirst⟩ : ∃ first more, rest ++ [last] = first :: more :=
      List.exists_cons_of_ne_nil (by simp)
    have hclean : IsClean first := by
      have hmem : first ∈ rest ++ [last] := by simp [hfirst]
      rcases List.mem_append.1 hmem with hmem | hmem
      · exact h.above_clean first (List.mem_append_right _ hmem)
      · rw [List.mem_singleton.1 hmem]
        exact h.last_clean
    rw [hway, List.append_assoc, hfirst,
      isExplicit_visiblyRelative_iff hclean.ne_nil hclean.no_slash, hclean.isDots_eq_false]
    simp [IsHiddenBelow]
  · have hnot : ¬ IsHiddenBelow (normal dir) (above ++ [last]) := by
      rintro ⟨first, more, hpath, -⟩
      refine hdown ?_
      have hprefix : normal dir <+: above ++ [last] := ⟨_, hpath.symm⟩
      rcases List.prefix_concat_iff.1 hprefix with heq | hprefix
      · simp [heq] at hpath
      · exact hprefix
    have hlt : sharedLength (normal dir) (above ++ [last ++ marker]) < (normal dir).length := by
      refine Nat.lt_of_le_of_ne (sharedLength_le_left _ _) fun heq => hdown ?_
      have htake := take_sharedLength (normal dir) (above ++ [last ++ marker])
      have hle := sharedLength_le_above hbeside
      rw [List.take_append_of_le_length hle, heq, List.take_length] at htake
      rw [htake]
      exact List.take_prefix _ _
    obtain ⟨n, hn⟩ := Nat.exists_eq_add_one.2 (Nat.sub_pos_of_lt hlt)
    rw [moduleWay, hn, List.replicate_succ, List.cons_append,
      isExplicit_visiblyRelative_iff (by decide) (by decide)]
    simp [hnot, isDots]

/-- A way that is made of dot parts only begins with one and goes on if it leads up twice. -/
theorem isExplicit_moduleSpecifier_above_iff (h : normal (target ++ marker) <+: normal dir) :
    IsExplicit (moduleSpecifier target dir) ↔
      (normal (target ++ marker)).length + 2 ≤ (normal dir).length := by
  have hle := h.length_le
  rw [moduleSpecifier_above h]
  split
  · rename_i heq
    rw [heq]
    simp [IsExplicit]
  · rename_i hne
    obtain ⟨n, hn⟩ :
        ∃ n, (normal dir).length - (normal (target ++ marker)).length = n + 1 :=
      Nat.exists_eq_add_one.2 (by omega)
    rw [hn, List.replicate_succ, isExplicit_intercalate_iff (by decide), Ne,
      List.replicate_eq_nil_iff]
    simp only [isDots, decide_true, Bool.or_true, true_and]
    omega

/-- From one directory, only one module is reached by a way. -/
theorem eq_of_moduleSpecifier_eq (h : IsModule target above last)
    (h' : IsModule target' above' last')
    (hsame : moduleSpecifier target dir = moduleSpecifier target' dir) :
    normal target = normal target' := by
  have hends : ∀ {t t' : List Char} {a a' : List (List Char)} {l l' : List Char},
      IsModule t a l → IsModule t' a' l' → moduleSpecifier t dir = moduleSpecifier t' dir →
      normal (t ++ marker) <+: normal dir → normal (t' ++ marker) <+: normal dir := by
    intro t t' a a' l l' ht ht' hspec habove
    by_contra hbeside
    have hdots := isDots_lastComponent_moduleSpecifier habove
    rw [hspec, lastComponent_moduleSpecifier ht' hbeside, ht'.last_clean.isDots_eq_false] at hdots
    cases hdots
  by_cases habove : normal (target ++ marker) <+: normal dir
  · have habove' := hends h h' hsame habove
    have hmarked := resolve_moduleSpecifier_above_self habove
    rw [hsame, resolve_moduleSpecifier_above_self habove', h.marked, h'.marked] at hmarked
    obtain ⟨rfl, hlast⟩ := List.append_inj' hmarked rfl
    rw [h.leads, h'.leads, List.append_cancel_right (List.singleton_inj.1 hlast)]
  · have hbeside := habove
    have hbeside' : ¬ normal (target' ++ marker) <+: normal dir := fun habove' =>
      habove (hends h' h hsame.symm habove')
    rw [h.marked] at hbeside
    rw [h'.marked] at hbeside'
    have hleads := resolve_moduleSpecifier_self h.marked h.above_clean h.last_clean hbeside rfl
    rw [hsame, resolve_moduleSpecifier_self h'.marked h'.above_clean h'.last_clean hbeside' rfl]
      at hleads
    rw [h.leads, h'.leads, hleads]

end SchemaArtifacts.Path
