import SchemaArtifacts.Proofs.Disk.Change

/-!
# Paths below a directory

Below a directory without links a path leads to its place by its names alone. A root leads to its
directory through whatever links there are before it; on every disk that keeps directories and links
it leads there again.

## Main definitions

* `Disk.GrowsToward` — a disk has more directories than another on the way to a path
* `Disk.RootAt` — a root leads to a directory

## Main results

* `Disk.locate_join` — where a path below a root leads
* `Disk.exists_rootAt_of_locate` — a path below a root that leads somewhere leads there through the
  root's directory
* `Disk.RootAt.locate_concat`, `Disk.exists_of_locate_concat` — where a path with one more name leads
-/

namespace SchemaArtifacts

/-- What lies above a path below a root lies above the root, or below it. -/
theorem AbsolutePath.IsAbove.of_join {q root : AbsolutePath} {dir : List String}
    (h : q.IsAbove (root.join dir)) :
    q.IsAbove root ∨ ∃ above, above ≠ [] ∧ above <+: dir ∧ q = root.join above := by
  obtain ⟨hdoubled, hparts⟩ := h
  rw [AbsolutePath.parts_join] at hparts
  rcases List.prefix_or_prefix_of_prefix hparts (List.prefix_append root.parts dir) with hq | hq
  · exact Or.inl ⟨hdoubled, hq⟩
  · obtain ⟨above, habove⟩ := hq
    have hjoin : q = root.join above := by
      obtain ⟨doubled, parts⟩ := q
      simp only [AbsolutePath.join] at hdoubled habove ⊢
      rw [hdoubled, habove]
    by_cases hnil : above = []
    · subst hnil
      rw [List.append_nil] at habove
      exact Or.inl ⟨hdoubled, habove ▸ List.prefix_refl _⟩
    · rw [← habove] at hparts
      exact Or.inr ⟨above, hnil, (List.prefix_append_right_inj _).1 hparts, hjoin⟩

namespace Disk

variable {d d' : Disk} {aim : Aim} {root : AbsolutePath} {top place names : List String}
  {name x : String}

/-- A path leads where it led, on a disk that keeps directories and links. -/
theorem Keeps.locate {p : AbsolutePath} (hk : Keeps d d') (h : d.locate aim p = .ok place) :
    d'.locate aim p = .ok place := by
  unfold Disk.locate at h ⊢
  split at h
  · cases h
  · rw [if_neg ‹_›]
    exact ((follows_of_walk h).keeps (by simp) hk).walk_eq

/-- A disk has only more directories than another, and each lies on the way to a path. -/
def GrowsToward (p : AbsolutePath) (d d' : Disk) : Prop :=
  ∀ place, d'.get? place = d.get? place ∨
    d.get? place = none ∧ d'.get? place = some .directory ∧
      ∃ q : AbsolutePath, q.IsAbove p ∧ d'.locate .itself q = .ok place

theorem GrowsToward.grows {p : AbsolutePath} (h : GrowsToward p d d') : Grows d d' := by
  intro place
  rcases h place with heq | ⟨hnone, hdir, -⟩
  · exact Or.inl heq
  · exact Or.inr ⟨hnone, hdir⟩

theorem GrowsToward.refl (p : AbsolutePath) (d : Disk) : GrowsToward p d d := fun _ => Or.inl rfl

/-- What lies on the way to a path above lies on the way to the path. -/
theorem GrowsToward.of_isAbove {p q : AbsolutePath} (h : GrowsToward q d d') (hq : q.IsAbove p) :
    GrowsToward p d d' := by
  intro place
  refine (h place).imp_right fun ⟨hnone, hdirectory, q', hq', hlocate⟩ => ?_
  exact ⟨hnone, hdirectory, q', ⟨hq'.doubled.trans hq.doubled, hq'.parts.trans hq.parts⟩, hlocate⟩

/-- Some of the names of a path lead to a path above it. -/
theorem isAbove_take (p : AbsolutePath) (n : Nat) :
    AbsolutePath.IsAbove { p with parts := p.parts.take n } p :=
  ⟨rfl, List.take_prefix n p.parts⟩

/-- Making directories adds directories on the way. -/
theorem growsToward_makeDirectories (p : AbsolutePath) (d : Disk) :
    GrowsToward p d ((DiskM.makeDirectories p).run d).2 := by
  refine DiskM.makeDirectories_preserves ?_ (.refl p d)
  intro d' made q hq h hlocate hnone place
  have hgrows := grows_set hnone
  -- Where a path above leads is said of the disk at the end, so it is carried over to each next
  -- disk.
  rcases h place with heq | ⟨hnone', hdir, q', hq', hlocate'⟩
  · rcases hgrows place with heq' | ⟨hnone', hdir'⟩
    · exact Or.inl (heq'.trans heq)
    · by_cases hplace : place = made
      · subst hplace
        exact Or.inr ⟨heq ▸ hnone', hdir', q, hq, hgrows.keeps.locate hlocate⟩
      · exact Or.inl ((get?_set_ne hplace).trans heq)
  · exact Or.inr ⟨hnone', hgrows.get?_of_some hdir, q', hq', hgrows.keeps.locate hlocate'⟩

/-- A root leads to a directory. -/
structure RootAt (d : Disk) (root : AbsolutePath) (top : List String) : Prop where
  follows : Follows d .behind linkLimit [] root.parts top
  directory : d.get? top = some .directory

theorem RootAt.keeps (h : RootAt d root top) (hk : Keeps d d') : RootAt d' root top :=
  ⟨h.follows.keeps (by simp) hk,
    hk.directory top (h.follows.isFirm (isFirm_nil d)).2 h.directory⟩

theorem RootAt.unique (h : RootAt d root top) {top' : List String} (h' : RootAt d root top') :
    top' = top :=
  Except.ok.inj (h'.follows.walk_eq.symm.trans h.follows.walk_eq)

theorem RootAt.isFirm (h : RootAt d root top) : IsFirm d top := by
  obtain ⟨hfirm, hnames⟩ := h.follows.isFirm (isFirm_nil d)
  refine ⟨hnames, fun above habove => ?_⟩
  rcases List.eq_nil_or_concat' top with rfl | ⟨init, last, rfl⟩
  · rw [List.prefix_nil.1 habove, get?_nil]
  · rcases List.prefix_concat_iff.1 habove with rfl | habove
    · exact h.directory
    · rw [List.dropLast_concat] at hfirm
      exact hfirm.directories above habove

/-- A path is short enough. -/
def IsShort (p : AbsolutePath) : Prop := p.toString.utf8ByteSize < pathLimit

instance (p : AbsolutePath) : Decidable (IsShort p) := by
  unfold IsShort
  infer_instance

theorem locate_of_isShort {p : AbsolutePath} (h : IsShort p) :
    d.locate aim p = d.walk aim linkLimit [] p.parts := by
  rw [locate, if_neg (Nat.not_le.2 h)]

theorem isShort_of_locate {p : AbsolutePath} (h : d.locate aim p = .ok place) : IsShort p := by
  unfold locate at h
  split at h
  · cases h
  · exact Nat.not_le.1 ‹_›

/-- A path that leads to a place comes there by a walk from the top. -/
theorem follows_of_locate {p : AbsolutePath} (h : d.locate aim p = .ok place) :
    Follows d aim linkLimit [] p.parts place := by
  rw [locate_of_isShort (isShort_of_locate h)] at h
  exact follows_of_walk h

/-- A path that leads to a directory can be the root of others. -/
theorem rootAt_of_locate (h : d.locate aim root = .ok place)
    (hdirectory : d.get? place = some .directory) : RootAt d root place :=
  ⟨(follows_of_locate h).behind hdirectory, hdirectory⟩

/-- Where a path below a root without links leads. -/
theorem locate_join (hr : RootAt d root top) (hfree : IsLinkFree d top) (hne : names ≠ [])
    (hplain : ∀ name ∈ names, IsPlain name) :
    d.locate aim (root.join names) =
      if IsShort (root.join names) then d.reach top names else .error .nameTooLong := by
  obtain ⟨links, happ⟩ := hr.follows.walk_append hr.directory
  have hopen : aim = .writing → "" ∉ names := fun _ hmem => (hplain "" hmem).ne_empty rfl
  by_cases hs : IsShort (root.join names)
  · rw [locate_of_isShort hs, if_pos hs, AbsolutePath.parts_join, happ aim names hne hopen,
      walk_eq_reach hfree hplain]
  · rw [if_neg hs, locate, if_pos (Nat.not_lt.1 hs)]

/-- A path below a root that leads somewhere leads there through the directory of the root. -/
theorem exists_rootAt_of_locate (h : d.locate aim (root.join names) = .ok place)
    (hne : names ≠ []) : ∃ top, RootAt d root top := by
  obtain ⟨top, _, hfollows, hdir, -⟩ :=
    (follows_of_locate h).exists_of_append (isFirm_nil d) hne
  exact ⟨top, hfollows, hdir⟩

/-- The place of a path below a root without links. -/
theorem place_of_locate_join (hr : RootAt d root top) (hfree : IsLinkFree d top) (hne : names ≠ [])
    (hplain : ∀ name ∈ names, IsPlain name) (h : d.locate aim (root.join names) = .ok place) :
    place = top ++ names := by
  rw [locate_join hr hfree hne hplain] at h
  split at h
  · exact place_of_reach h
  · cases h

/-- A root leads on through directories by their names. -/
theorem RootAt.join_of_isFirm (h : RootAt d root top) (hfirm : IsFirm d (top ++ names)) :
    RootAt d (root.join names) (top ++ names) := by
  by_cases hne : names = []
  · rwa [hne, AbsolutePath.join_nil, List.append_nil]
  · obtain ⟨links, happ⟩ := h.follows.walk_append h.directory
    have hwalk : d.walk .behind links top (names ++ []) = d.walk .behind links (top ++ names) [] :=
      walk_of_isFirm hfirm (by simp)
    rw [List.append_nil, walk_nil] at hwalk
    refine ⟨follows_of_walk ?_, hfirm.get?⟩
    rw [AbsolutePath.parts_join, happ .behind names hne (by simp), hwalk]

/-- A path with one more name leads into the directory that the path leads to, unless a link stands
there and is followed. -/
theorem exists_of_locate_concat (h : d.locate aim (root.join [name]) = .ok place)
    (hplain : IsPlain name) (hlink : ∀ top, RootAt d root top →
      ∀ target, d.get? (top ++ [name]) = some (.link target) → aim = .itself) :
    ∃ top, RootAt d root top ∧ IsName name ∧ place = top ++ [name] := by
  obtain ⟨top, links, hfollows, hdirectory, hlast⟩ :=
    (follows_of_locate h).exists_of_append (isFirm_nil d) (by simp)
  have hr : RootAt d root top := ⟨hfollows, hdirectory⟩
  refine ⟨top, hr, ?_⟩
  cases hlast with
  | stay _ _ _ _ _ still => exact absurd still (not_or.2 ⟨hplain.ne_empty, hplain.ne_dot⟩)
  | up => exact absurd rfl hplain.ne_dots
  | last _ _ _ isName => exact ⟨isName, rfl⟩
  | enter _ _ _ _ _ isName _ _ more =>
    cases more
    exact ⟨isName, rfl⟩
  | link _ _ _ _ _ target _ _ entry behind => exact absurd ⟨rfl, hlink top hr target entry⟩ behind

/-- Where a path with one more name leads. -/
theorem RootAt.locate_concat (h : RootAt d root top) (hname : IsName name)
    (hshort : IsShort (root.join [name]))
    (hlink : ∀ target, d.get? (top ++ [name]) = some (.link target) → aim = .itself) :
    d.locate aim (root.join [name]) = .ok (top ++ [name]) := by
  obtain ⟨links, happ⟩ := h.follows.walk_append h.directory
  rw [locate_of_isShort hshort, AbsolutePath.parts_join,
    happ aim [name] (by simp) (by simp [hname.ne_empty.symm]), walk_name hname (by simp)]
  cases hentry : d.get? (top ++ [name]) with
  | none => rfl
  | some e =>
    cases e with
    | directory => exact walk_nil
    | file content => rfl
    | link target => simp [hlink target hentry]

end Disk
end SchemaArtifacts
