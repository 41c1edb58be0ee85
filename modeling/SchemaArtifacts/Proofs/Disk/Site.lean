import SchemaArtifacts.Proofs.Disk.Tree

/-!
# Making directories below a site

A root may go up, as by its parent parts, before it goes on by names. If it goes up from directories
that are there, then all that it can go up from is there before anything is made, and the rest of a
path below it is a matter of names: the directories on the way are made one by one, and each is made,
found, or in the way, whichever of them others have made before.

## Main definitions

* `AbsolutePath.IsGrounded` — a root goes up from directories that are there
* `Disk.Site` — a tree without links, with a directory from where paths go on by names
* `Disk.Paved` — how making directories ends

## Main results

* `Disk.exists_site` — a grounded root lies below a site
* `Disk.Site.paved` — how making directories below a site ends
* `Disk.Site.makeDirectories_congr` — it ends in the same way if others have made some of them
* `Disk.GrowsToward.at_site` — which directories are made
-/

namespace SchemaArtifacts

open Disk

/-- A path goes up from directories that are there. -/
def AbsolutePath.IsGrounded (p : AbsolutePath) (d : Disk) : Prop :=
  ∀ (above : List String) (part : String) (rest : List String), p.parts = above ++ part :: rest →
    ¬ IsPlain part → d.isDirectory { p with parts := above }

theorem AbsolutePath.isGrounded_of_isPlain {p : AbsolutePath} (h : ∀ part ∈ p.parts, IsPlain part)
    (d : Disk) : p.IsGrounded d := by
  intro above part rest hparts hpart
  exact absurd (h part (by simp [hparts])) hpart

namespace Disk

variable {d d' : Disk} {base p q : AbsolutePath} {top dir names place : List String}
  {name : String} {e : DiskError} {result : Except DiskError Unit} {aim : Aim}

/-- A tree without links, and a path to a directory on it that goes up no further than to what is
there. -/
structure Site (d : Disk) (base : AbsolutePath) (top : List String) : Prop where
  rootAt : RootAt d base top
  linkFree : IsLinkFree d []
  tree : IsTree d
  above : base.parts = [] ∨ d.isDirectory base.parent

theorem Site.isLinkFree (h : Site d base top) : IsLinkFree d top :=
  h.linkFree.of_prefix List.nil_prefix

theorem isDirectory_of_keeps (hk : Keeps d d') (h : d.isDirectory p) : d'.isDirectory p := by
  obtain ⟨top, hr, hshort⟩ := exists_rootAt_of_isDirectory h
  have hr' := hr.keeps hk
  exact isDirectory_iff.2 ⟨top, hr'.locate hshort, hr'.directory⟩

/-- A site stays one on every tree that keeps its directories. -/
theorem Site.keeps (h : Site d base top) (hk : Keeps d d') (htree : IsTree d') :
    Site d' base top :=
  ⟨h.rootAt.keeps hk, fun below target hb hl => h.linkFree below target hb (hk.noLink _ _ hl), htree,
    h.above.imp_right (isDirectory_of_keeps hk)⟩

/-- A step that is no name leads from a directory to a directory. -/
theorem RootAt.exists_of_not_isPlain {part : String} (h : RootAt d base top)
    (hpart : ¬ IsPlain part) : ∃ top', RootAt d (base.join [part]) top' := by
  obtain ⟨links, happ⟩ := h.follows.walk_append h.directory
  have hwalk : ∀ top', d.walk .behind links top [part] = .ok top' →
      d.walk .behind linkLimit [] (base.join [part]).parts = .ok top' := by
    intro top' hlast
    rw [AbsolutePath.parts_join, happ .behind [part] (by simp) (by simp), hlast]
  by_cases hup : part = ".."
  · subst hup
    refine ⟨top.dropLast, follows_of_walk (hwalk _ ?_), h.isFirm.dropLast.get?⟩
    rw [walk_up (by simp), walk_nil]
  · have hstill : part = "" ∨ part = "." := by
      by_contra hnot
      exact hpart ⟨fun h => hnot (.inl h), fun h => hnot (.inr h), hup⟩
    refine ⟨top, follows_of_walk (hwalk _ ?_), h.directory⟩
    rw [walk_stay hstill (by simp), walk_nil]

/-- A root that goes up from directories that are there lies below a site by names. -/
theorem exists_site (hfree : IsLinkFree d []) (htree : IsTree d) (h : p.IsGrounded d) :
    ∃ base top names, Site d base top ∧ (∀ name ∈ names, IsPlain name) ∧ p = base.join names := by
  obtain ⟨doubled, parts⟩ := p
  -- The induction is on the end of the path: names are put behind the site that the rest has, and
  -- the last part that is no name gives a site of its own.
  induction parts using List.reverseRecOn with
  | nil =>
    exact ⟨⟨doubled, []⟩, [], [], ⟨⟨.arrived _ _, get?_nil d⟩, hfree, htree, Or.inl rfl⟩, by simp, rfl⟩
  | append_singleton init last ih =>
    by_cases hlast : IsPlain last
    · have hinit : AbsolutePath.IsGrounded ⟨doubled, init⟩ d := by
        intro above part rest hparts hpart
        have hparts : init = above ++ part :: rest := hparts
        exact h above part (rest ++ [last]) (by simp [hparts]) hpart
      obtain ⟨base, top, names, hsite, hplain, hjoin⟩ := ih hinit
      refine ⟨base, top, names ++ [last], hsite, ?_, ?_⟩
      · exact List.forall_mem_append.2 ⟨hplain, List.forall_mem_singleton.2 hlast⟩
      · have hdoubled := congrArg AbsolutePath.doubled hjoin
        have hparts := congrArg AbsolutePath.parts hjoin
        simp only [AbsolutePath.join] at hdoubled hparts ⊢
        rw [hdoubled, hparts, List.append_assoc]
    · have habove := h init last [] rfl hlast
      obtain ⟨top, hr, -⟩ := exists_rootAt_of_isDirectory habove
      obtain ⟨top', hr'⟩ := hr.exists_of_not_isPlain hlast
      refine ⟨⟨doubled, init ++ [last]⟩, top', [], ⟨hr', hfree, htree, Or.inr ?_⟩, by simp, ?_⟩
      · simpa [AbsolutePath.parent] using habove
      · simp [AbsolutePath.join]

/-! ## Below a site -/

theorem reach_append_of_isFirm {here above rest : List String} (h : IsFirm d (here ++ above)) :
    d.reach here (above ++ rest) = d.reach (here ++ above) rest := by
  induction above generalizing here with
  | nil => simp
  | cons name above ih =>
    have hshort : ¬ nameLimit < name.utf8ByteSize := Nat.not_lt.2 (h.names name (by simp)).short
    have hdirectory : d.get? (here ++ [name]) = some .directory := h.directories _ ⟨above, by simp⟩
    have hsplit : here ++ name :: above = here ++ [name] ++ above := by simp
    rw [List.cons_append, reach, if_neg hshort, hdirectory, hsplit]
    exact ih (by rwa [← hsplit])

/-- Behind a file there is nothing. -/
theorem reach_concat_of_file {here : List String} {content : String} (hne : names ≠ [])
    (h : d.reach here names = .ok place) (hfile : d.get? place = some (.file content)) :
    d.reach here (names ++ [name]) = .error .notDirectory := by
  induction names generalizing here with
  | nil => exact absurd rfl hne
  | cons first rest ih =>
    rw [reach] at h
    rw [List.cons_append, reach]
    split at h
    · cases h
    · rename_i hshort
      rw [if_neg hshort]
      split at h
      · rename_i hentry
        split at h
        · cases h
          rw [hentry] at hfile
          cases hfile
        · cases h
      · rename_i hentry
        by_cases hrest : rest = []
        · subst hrest
          cases h
          rw [hentry] at hfile
          cases hfile
        · -- A file on the way ends the walk, so what is not the last name is a directory.
          exact ih hrest h
      · simp

/-- Where a path leads that goes on by one name from a directory below a site. -/
theorem Site.locate_of_isFirm (h : Site d base top) (hfirm : IsFirm d (top ++ dir))
    (hplain : ∀ n ∈ dir ++ [name], IsPlain n) : d.locate aim (base.join (dir ++ [name])) =
      if IsShort (base.join (dir ++ [name])) ∧ name.utf8ByteSize ≤ nameLimit then
        .ok (top ++ (dir ++ [name]))
      else .error .nameTooLong := by
  rw [locate_join h.rootAt h.isLinkFree (by simp) hplain, reach_append_of_isFirm hfirm, reach]
  by_cases hs : IsShort (base.join (dir ++ [name]))
  · by_cases hn : name.utf8ByteSize ≤ nameLimit
    · have hfits : IsShort (base.join (dir ++ [name])) ∧ name.utf8ByteSize ≤ nameLimit := ⟨hs, hn⟩
      rw [if_pos hs, if_neg (Nat.not_lt.2 hn), if_pos hfits, ← List.append_assoc]
      cases d.get? (top ++ dir ++ [name]) with
      | none => rfl
      | some e =>
        cases e with
        | directory => simp only [reach]
        | _ => rfl
    · rw [if_pos hs, if_pos (Nat.not_le.1 hn), if_neg fun h => hn h.2]
  · rw [if_neg hs, if_neg fun h => hs h.1]

/-- Making one more directory below a site: it is made, or found, or a file is in its way. -/
theorem Site.run_ensureDirectory (h : Site d base top) (hfirm : IsFirm d (top ++ dir))
    (hplain : ∀ n ∈ dir ++ [name], IsPlain n) :
    (DiskM.ensureDirectory (base.join (dir ++ [name]))).run d =
      if IsShort (base.join (dir ++ [name])) ∧ name.utf8ByteSize ≤ nameLimit then
        match d.get? (top ++ (dir ++ [name])) with
        | none => (.ok (), d.set (top ++ (dir ++ [name])) .directory)
        | some .directory => (.ok (), d)
        | some _ =>
          (.error { cause := .alreadyThere, path := (base.join (dir ++ [name])).toString }, d)
      else (.error { cause := .nameTooLong, path := (base.join (dir ++ [name])).toString }, d) := by
  rw [DiskM.run_ensureDirectory, DiskM.run_makeDirectory, h.locate_of_isFirm hfirm hplain]
  by_cases hfits : IsShort (base.join (dir ++ [name])) ∧ name.utf8ByteSize ≤ nameLimit
  · rw [if_pos hfits, if_pos hfits]
    cases hentry : d.get? (top ++ (dir ++ [name])) with
    | none => simp [hentry]
    | some e =>
      have hdirectory : d.isDirectory (base.join (dir ++ [name])) = decide (e = .directory) := by
        rw [isDirectory, entryAt?, h.locate_of_isFirm hfirm hplain, if_pos hfits]
        simp [hentry]
      cases e <;> simp [hentry, hdirectory]
  · have hdirectory : d.isDirectory (base.join (dir ++ [name])) = false := by
      rw [isDirectory, entryAt?, h.locate_of_isFirm hfirm hplain, if_neg hfits]
      simp
    rw [if_neg hfits, if_neg hfits]
    simp [hdirectory]

/-- Behind a file no directory is made. -/
theorem Site.run_ensureDirectory_of_file (h : Site d base top)
    (hplain : ∀ n ∈ dir ++ [name], IsPlain n) {content : String}
    (hreach : d.reach top dir = .ok (top ++ dir)) (hfile : d.get? (top ++ dir) = some (.file content)) :
    (DiskM.ensureDirectory (base.join (dir ++ [name]))).run d =
      (.error
        { cause := if IsShort (base.join (dir ++ [name])) then .notDirectory else .nameTooLong
          path := (base.join (dir ++ [name])).toString }, d) := by
  have hne : dir ≠ [] := by
    rintro rfl
    rw [List.append_nil, h.rootAt.directory] at hfile
    cases hfile
  have hlocate : ∀ aim, d.locate aim (base.join (dir ++ [name])) =
      .error (if IsShort (base.join (dir ++ [name])) then .notDirectory else .nameTooLong) := by
    intro aim
    rw [locate_join h.rootAt h.isLinkFree (by simp) hplain, reach_concat_of_file hne hreach hfile]
    split <;> rfl
  have hdirectory : d.isDirectory (base.join (dir ++ [name])) = false := by
    rw [isDirectory, entryAt?, hlocate]
    simp
  rw [DiskM.run_ensureDirectory, DiskM.run_makeDirectory, hlocate]
  simp [hdirectory]

/-! ## The directories on the way -/

theorem run_makeDirectories_of_exists (hfree : IsLinkFree d []) (h : d.exists_ p) :
    (DiskM.makeDirectories p).run d =
      (if d.isDirectory p then .ok ()
        else .error { cause := .alreadyThere, path := p.toString }, d) := by
  obtain ⟨place, e, hlocate, hentry⟩ := exists_iff.1 h
  have hparent : p.parts = [] ∨ d.exists_ p.parent := by
    by_cases hne : p.parts = []
    · exact Or.inl hne
    · obtain ⟨above, habove, hdirectory⟩ :=
        isDirectory_iff.1 (isDirectory_parent_of_locate hne hlocate)
      exact Or.inr (exists_iff.2 ⟨above, _, habove, hdirectory⟩)
  rw [DiskM.run_makeDirectories, if_pos hparent, DiskM.run_ensureDirectory, DiskM.run_makeDirectory,
    locate_itself hfree, hlocate]
  simp [hentry]

/-- Making directories, whether those on the way are there or not. -/
theorem run_makeDirectories_concat (hfree : IsLinkFree d []) (hne : p.parts ≠ []) :
    (DiskM.makeDirectories p).run d =
      match (DiskM.makeDirectories p.parent).run d with
      | (.ok (), d') => (DiskM.ensureDirectory p).run d'
      | (.error e, d') =>
        if e.cause = .alreadyThere then (DiskM.ensureDirectory p).run d' else (.error e, d') := by
  rw [DiskM.run_makeDirectories]
  by_cases hparent : d.exists_ p.parent
  · rw [if_pos (Or.inr hparent), run_makeDirectories_of_exists hfree hparent]
    cases d.isDirectory p.parent <;> rfl
  · exact if_neg (not_or.2 ⟨hne, hparent⟩)

/-- The directory of a site is there. -/
theorem Site.run_makeDirectories_base (h : Site d base top) : (DiskM.makeDirectories base).run d =
    (if IsShort base then .ok ()
      else .error { cause := .nameTooLong, path := base.toString }, d) := by
  by_cases hs : IsShort base
  · have hdirectory : d.isDirectory base :=
      isDirectory_iff.2 ⟨top, h.rootAt.locate hs, h.rootAt.directory⟩
    have hexists : d.exists_ base := exists_iff.2 ⟨top, _, h.rootAt.locate hs, h.rootAt.directory⟩
    rw [run_makeDirectories_of_exists h.linkFree hexists, if_pos hdirectory, if_pos hs]
  · -- The path is too long to be looked up, but its parent is there, so nothing is made before.
    have hparent : base.parts = [] ∨ d.exists_ base.parent := by
      refine h.above.imp_right fun hdirectory => ?_
      obtain ⟨above, habove, hentry⟩ := isDirectory_iff.1 hdirectory
      exact exists_iff.2 ⟨above, _, habove, hentry⟩
    have hlocate : ∀ aim, d.locate aim base = .error .nameTooLong := by
      intro aim
      rw [locate, if_pos (Nat.not_lt.1 hs)]
    have hdirectory : d.isDirectory base = false := by
      rw [isDirectory, entryAt?, hlocate]
      simp
    rw [DiskM.run_makeDirectories, if_pos hparent, DiskM.run_ensureDirectory,
      DiskM.run_makeDirectory, hlocate, if_neg hs]
    simp [hdirectory]

theorem parent_join_concat (base : AbsolutePath) (dir : List String) (name : String) :
    (base.join (dir ++ [name])).parent = base.join dir := by
  simp [AbsolutePath.parent, AbsolutePath.join, ← List.append_assoc]

/-- The directories that are made on the way to a path below a site. -/
theorem GrowsToward.at_site (hgrows : GrowsToward (base.join dir) d d') (h : Site d base top)
    (hplain : ∀ n ∈ dir, IsPlain n) (place : List String) :
    d'.get? place = d.get? place ∨ d.get? place = none ∧ d'.get? place = some .directory ∧
      ∃ above, above <+: dir ∧ place = top ++ above := by
  have h' := h.keeps hgrows.grows.keeps (hgrows.isTree h.tree)
  rcases hgrows place with heq | ⟨hnone, hdirectory, q, hq, hlocate⟩
  · exact Or.inl heq
  refine Or.inr ⟨hnone, hdirectory, ?_⟩
  have hparts := hq.parts
  rw [AbsolutePath.parts_join] at hparts
  by_cases hbase : q.parts <+: base.parts
  · exfalso
    obtain ⟨rest, hrest⟩ := hbase
    rw [locate_itself h'.linkFree, locate_of_isShort (isShort_of_locate hlocate)] at hlocate
    by_cases hnil : rest = []
    · rw [hnil, List.append_nil] at hrest
      rw [hrest, h'.rootAt.follows.walk_eq] at hlocate
      cases hlocate
      rw [h.rootAt.directory] at hnone
      cases hnone
    · have hfollows := h.rootAt.follows
      rw [← hrest] at hfollows
      obtain ⟨middle, _, hwalk, hmiddle, -⟩ := hfollows.exists_of_append (isFirm_nil d) hnil
      rw [(hwalk.keeps (by simp) hgrows.grows.keeps).walk_eq] at hlocate
      cases hlocate
      rw [hmiddle] at hnone
      cases hnone
  · obtain ⟨above, habove⟩ : base.parts <+: q.parts :=
      (List.prefix_or_prefix_of_prefix hparts (List.prefix_append _ _)).resolve_left hbase
    have hdir : above <+: dir := by rwa [← habove, List.prefix_append_right_inj] at hparts
    have hnil : above ≠ [] := by
      rintro rfl
      exact hbase ⟨[], by rw [← habove]; simp⟩
    have hjoin : q = base.join above := by
      obtain ⟨doubled, parts⟩ := q
      obtain rfl : doubled = base.doubled := hq.doubled
      obtain rfl : base.parts ++ above = parts := habove
      rfl
    rw [hjoin] at hlocate
    exact ⟨above, hdir, place_of_locate_join h'.rootAt h'.isLinkFree hnil
      (fun n hn => hplain n (hdir.subset hn)) hlocate⟩

theorem concat_not_above (dir : List String) (name : String) : ¬ dir ++ [name] <+: dir := by
  intro h
  have hlength := h.length_le
  rw [List.length_append, List.length_singleton] at hlength
  omega

theorem Site.makeDirectories (h : Site d base top) (p : AbsolutePath) :
    Site ((DiskM.makeDirectories p).run d).2 base top :=
  h.keeps (growsToward_makeDirectories p d).grows.keeps ((growsToward_makeDirectories p d).isTree h.tree)

/-- The directories to a place are made elsewhere than in the place itself. -/
theorem GrowsToward.get?_concat (hgrows : GrowsToward (base.join dir) d d') (h : Site d base top)
    (hplain : ∀ n ∈ dir, IsPlain n) (name : String) :
    d'.get? (top ++ (dir ++ [name])) = d.get? (top ++ (dir ++ [name])) := by
  rcases hgrows.at_site h hplain (top ++ (dir ++ [name])) with heq | ⟨-, -, above, habove, heq⟩
  · exact heq
  · rw [← List.append_cancel_left heq] at habove
    exact absurd habove (concat_not_above dir name)

/-- How making the directories to a place below a site ends: they are there, or the last of them is
a file, or something else is wrong. -/
inductive Paved (top dir : List String) (d : Disk) : Except DiskError Unit → Prop where
  | firm (there : IsFirm d (top ++ dir)) : Paved top dir d (.ok ())
  | blocked (e : DiskError) (content : String) (cause : e.cause = .alreadyThere)
      (reached : d.reach top dir = .ok (top ++ dir))
      (file : d.get? (top ++ dir) = some (.file content)) : Paved top dir d (.error e)
  | failed (e : DiskError) (cause : e.cause ≠ .alreadyThere) : Paved top dir d (.error e)

theorem Site.paved_ensureDirectory (h : Site d base top) (hfirm : IsFirm d (top ++ dir))
    (hplain : ∀ n ∈ dir ++ [name], IsPlain n) :
    Paved top (dir ++ [name]) ((DiskM.ensureDirectory (base.join (dir ++ [name]))).run d).2
      ((DiskM.ensureDirectory (base.join (dir ++ [name]))).run d).1 := by
  rw [h.run_ensureDirectory hfirm hplain]
  by_cases hfits : IsShort (base.join (dir ++ [name])) ∧ name.utf8ByteSize ≤ nameLimit
  · have hname : IsName name := ⟨hplain name (by simp), hfits.2⟩
    rw [if_pos hfits]
    cases hentry : d.get? (top ++ (dir ++ [name])) with
    | none =>
      rw [← List.append_assoc] at hentry
      apply Paved.firm
      rw [← List.append_assoc]
      exact (hfirm.keeps (grows_set hentry).keeps).concat hname (get?_set_self (by simp))
    | some e =>
      cases e with
      | directory =>
        rw [← List.append_assoc] at hentry
        apply Paved.firm
        rw [← List.append_assoc]
        exact hfirm.concat hname hentry
      | file content =>
        refine .blocked _ content rfl ?_ hentry
        have hlocate : d.locate .behind (base.join (dir ++ [name])) = .ok (top ++ (dir ++ [name])) := by
          rw [h.locate_of_isFirm hfirm hplain, if_pos hfits]
        rwa [locate_join h.rootAt h.isLinkFree (by simp) hplain, if_pos hfits.1] at hlocate
      | link target => exact absurd hentry (h.linkFree _ target List.nil_prefix)
  · rw [if_neg hfits]
    exact .failed _ (by simp)

/-- Making directories below a site ends in one of these ways. -/
theorem Site.paved (h : Site d base top) (hplain : ∀ n ∈ dir, IsPlain n) :
    Paved top dir ((DiskM.makeDirectories (base.join dir)).run d).2
      ((DiskM.makeDirectories (base.join dir)).run d).1 := by
  induction dir using List.reverseRecOn with
  | nil =>
    rw [AbsolutePath.join_nil, h.run_makeDirectories_base]
    split
    · apply Paved.firm
      rw [List.append_nil]
      exact h.rootAt.isFirm
    · exact .failed _ (by simp)
  | append_singleton dir name ih =>
    have hparent := ih fun n hn => hplain n (by simp [hn])
    have hsite := h.makeDirectories (base.join dir)
    rw [run_makeDirectories_concat h.linkFree (by simp), parent_join_concat]
    generalize (DiskM.makeDirectories (base.join dir)).run d = outcome at hparent hsite
    obtain ⟨result, d'⟩ := outcome
    dsimp only at hparent hsite
    cases hparent with
    | firm there => exact hsite.paved_ensureDirectory there hplain
    | blocked e content cause reached file =>
      dsimp only
      -- A file at the parent is no failure of the parent's, but nothing is made behind it.
      rw [if_pos cause, hsite.run_ensureDirectory_of_file hplain reached file]
      refine .failed _ ?_
      dsimp only
      split <;> simp
    | failed e cause =>
      dsimp only
      rw [if_neg cause]
      exact .failed e cause

/-- Making directories below a site ends in the same way if others have made some of them. -/
theorem Site.makeDirectories_congr (h : Site d base top) (h' : Site d' base top)
    (hplain : ∀ n ∈ dir, IsPlain n) (hahead : ∀ above, above <+: dir → Ahead d d' (top ++ above)) :
    ((DiskM.makeDirectories (base.join dir)).run d').1 =
      ((DiskM.makeDirectories (base.join dir)).run d).1 := by
  induction dir using List.reverseRecOn with
  | nil =>
    rw [AbsolutePath.join_nil, h.run_makeDirectories_base, h'.run_makeDirectories_base]
  | append_singleton dir name ih =>
    have hplain' : ∀ n ∈ dir, IsPlain n := fun n hn => hplain n (by simp [hn])
    have hprefix : dir <+: dir ++ [name] := List.prefix_append _ _
    have hsame := ih hplain' fun above habove => hahead above (habove.trans hprefix)
    have hlast := hahead (dir ++ [name]) (List.prefix_refl _)
    have hplace := (growsToward_makeDirectories (base.join dir) d).get?_concat h hplain' name
    have hplace' := (growsToward_makeDirectories (base.join dir) d').get?_concat h' hplain' name
    have hpaved := h.paved hplain'
    have hpaved' := h'.paved hplain'
    have hsite := h.makeDirectories (base.join dir)
    have hsite' := h'.makeDirectories (base.join dir)
    rw [run_makeDirectories_concat h.linkFree (by simp),
      run_makeDirectories_concat h'.linkFree (by simp), parent_join_concat]
    generalize (DiskM.makeDirectories (base.join dir)).run d = outcome at *
    generalize (DiskM.makeDirectories (base.join dir)).run d' = outcome' at *
    obtain ⟨result, d₁⟩ := outcome
    obtain ⟨result', d₁'⟩ := outcome'
    dsimp only at hsame hpaved hpaved' hsite hsite' hplace hplace'
    subst hsame
    cases hpaved with
    | firm there =>
      cases hpaved' with
      | firm there' =>
        dsimp only
        rw [hsite.run_ensureDirectory there hplain, hsite'.run_ensureDirectory there' hplain,
          hplace, hplace']
        split
        · rcases hlast with heq | ⟨hnone, hdirectory⟩
          · rw [heq]
            cases d.get? (top ++ (dir ++ [name])) with
            | none => rfl
            | some e => cases e <;> rfl
          · rw [hnone, hdirectory]
        · rfl
    | blocked e content cause reached file =>
      cases hpaved' with
      | blocked _ content' _ reached' file' =>
        dsimp only
        rw [if_pos cause, if_pos cause, hsite.run_ensureDirectory_of_file hplain reached file,
          hsite'.run_ensureDirectory_of_file hplain reached' file']
      | failed _ cause' => exact absurd cause cause'
    | failed e cause =>
      dsimp only
      rw [if_neg cause, if_neg cause]

end Disk
end SchemaArtifacts
