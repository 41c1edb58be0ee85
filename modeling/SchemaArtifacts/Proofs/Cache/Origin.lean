import SchemaArtifacts.Proofs.Cache.Content
import SchemaArtifacts.Proofs.Cache.World

/-!
# Where entries come from

A root may lead to a directory that is there and empty, or go on from one by names of which the first
is not there. On every disk that keeps the directories and links of such a disk the root can lead to
one place only, and no directory that is made on the way to the root comes to lie below that place.
So whatever is below it later comes from a write: it is an artifact, a temporary file, or a directory
on the way to an artifact.

## Main definitions

* `Disk.IsVacant` — nothing is at the names behind a path, or below the path if there are none
* `Cache.Explains` — a write of the cache accounts for an entry below the root
* `Cache.IsExplained` — one does for each entry there

## Main results

* `Disk.IsVacant.eq_of_rootAt` — the one place that the root can lead to
* `Disk.IsVacant.isFreeBelow` — there are no links there
* `Disk.IsVacant.ne_of_isAbove` — what is made on the way to the root does not lie below it
* `Job.Stroke.explained` — what a step of a write brings there
* `Cache.IsExplained.advance` — every entry stays accounted for
-/

namespace SchemaArtifacts

open Disk

namespace Disk

variable {d d' : Disk} {aim : Aim} {base q : AbsolutePath} {links : Nat}
  {here rest top names above below place : List String}

/-- What lies above a path to a directory leads to a directory. -/
theorem RootAt.exists_of_isAbove (h : RootAt d base top) (hq : q.IsAbove base) :
    ∃ place, RootAt d q place := by
  obtain ⟨rest, hrest⟩ := hq.parts
  have hfollows := h.follows
  rw [← hrest] at hfollows
  by_cases hnil : rest = []
  · subst hnil
    rw [List.append_nil] at hfollows
    exact ⟨top, hfollows, h.directory⟩
  · obtain ⟨middle, _, hmiddle, hdirectory, -⟩ := hfollows.exists_of_append (isFirm_nil d) hnil
    exact ⟨middle, hmiddle, hdirectory⟩

/-- A path leads to a directory, and nothing is there at the first of some names behind it, or below
it at all if there are no names. -/
structure IsVacant (d : Disk) (base : AbsolutePath) (top names : List String) : Prop where
  rootAt : RootAt d base top
  plain : ∀ name ∈ names, IsPlain name
  nothing : ∀ below, below ≠ [] → names.take 1 <+: below → d.get? (top ++ below) = none

theorem isVacant_empty (hplain : ∀ name ∈ names, IsPlain name) : IsVacant {} {} [] names := by
  refine ⟨⟨.arrived _ _, rfl⟩, hplain, fun below hne _ => ?_⟩
  simp [Disk.get?, Disk.find?, hne]

/-- Some of the names are as good as all of them. -/
theorem IsVacant.of_prefix (h : IsVacant d base top names) (hne : above ≠ [])
    (habove : above <+: names) : IsVacant d base top above := by
  obtain ⟨rest, rfl⟩ := habove
  refine ⟨h.rootAt, fun name hname => h.plain name (List.mem_append_left _ hname), ?_⟩
  cases above with
  | nil => exact absurd rfl hne
  | cons first above => exact h.nothing

theorem IsVacant.get?_eq_none (h : IsVacant d base top names) (hne : names ++ below ≠ []) :
    d.get? (top ++ (names ++ below)) = none :=
  h.nothing _ hne ((List.take_prefix 1 names).trans (List.prefix_append names below))

/-- No links turn up where nothing was. -/
theorem IsVacant.isLinkFree (h : IsVacant d base top names) (hk : Keeps d d') :
    IsLinkFree d' (top ++ names) := by
  rintro place target ⟨below, rfl⟩ hlink
  have hbefore := hk.noLink _ _ hlink
  rw [List.append_assoc] at hbefore
  by_cases hne : names ++ below = []
  · rw [hne, List.append_nil, h.rootAt.directory] at hbefore
    cases hbefore
  · rw [h.get?_eq_none hne] at hbefore
    cases hbefore

/-- The root can lead to one place only. -/
theorem IsVacant.eq_of_rootAt (h : IsVacant d base top names) (hk : Keeps d d')
    (hr : RootAt d' (base.join names) place) : place = top ++ names := by
  have hbase := h.rootAt.keeps hk
  cases names with
  | nil =>
    rw [AbsolutePath.join_nil] at hr
    rw [List.append_nil]
    exact hbase.unique hr
  | cons first rest =>
    have hfollows := hr.follows
    rw [AbsolutePath.parts_join] at hfollows
    obtain ⟨middle, _, hmiddle, hdirectory, hmore⟩ :=
      hfollows.exists_of_append (isFirm_nil d') (List.cons_ne_nil first rest)
    obtain rfl := hbase.unique ⟨hmiddle, hdirectory⟩
    have hplain := h.plain first List.mem_cons_self
    have hfirst := h.of_prefix (List.cons_ne_nil first []) (List.prefix_append [first] rest)
    -- The first name can only have become a directory, and behind it there are no links.
    cases hmore with
    | stay _ _ _ _ _ still =>
      rcases still with rfl | rfl
      · exact absurd rfl hplain.ne_empty
      · exact absurd rfl hplain.ne_dot
    | up => exact absurd rfl hplain.ne_dots
    | last => rfl
    | enter _ _ _ _ _ _ _ _ more =>
      have hfree := hfirst.isLinkFree hk
      have hreach := more.walk_eq
      rw [walk_eq_reach hfree fun name hname => h.plain name (List.mem_cons_of_mem _ hname)] at hreach
      rw [place_of_reach hreach, List.append_assoc, List.singleton_append]
    | link _ _ _ _ _ target _ _ entry =>
      have hnone := h.nothing [first] (by simp) (by simp)
      rw [hk.noLink _ _ entry] at hnone
      cases hnone

theorem IsVacant.isFreeBelow (h : IsVacant d base top names) : IsFreeBelow d (base.join names) := by
  intro d' place hk hr
  rw [h.eq_of_rootAt hk hr]
  exact h.isLinkFree (.refl d)

/-- A directory on the way to the root does not lie below it: what is above the base was there before,
and what is made behind it leads no further than the names. -/
theorem IsVacant.ne_of_isAbove (h : IsVacant d base top names) (hk : Keeps d d')
    (hq : q.IsAbove (base.join names)) (hlocate : d'.locate aim q = .ok place)
    (hdirectory : d'.get? place = some .directory) (hne : below ≠ []) :
    place ≠ top ++ names ++ below := by
  rintro rfl
  have hr := rootAt_of_locate hlocate hdirectory
  rcases hq.of_join with hq | ⟨above, hnil, habove, rfl⟩
  · obtain ⟨middle, hmiddle⟩ := h.rootAt.exists_of_isAbove hq
    have hthere := hmiddle.directory
    rw [(hr.unique (hmiddle.keeps hk)), List.append_assoc,
      h.get?_eq_none (List.append_ne_nil_of_right_ne_nil names hne)] at hthere
    cases hthere
  · have hplace := (h.of_prefix hnil habove).eq_of_rootAt hk hr
    rw [List.append_assoc] at hplace
    have hlength := congrArg List.length (List.append_cancel_left hplace)
    rw [List.length_append] at hlength
    have habove := habove.length_le
    have hbelow := List.length_pos_iff.2 hne
    omega

end Disk

section Vacant

variable {d₀ d d' : Disk} {base : AbsolutePath} {top names dir below : List String} {name : String}
  {job : Job} {stage : Stage} {c c' : Cache} {id : Nat}

/-- What is below the root after a step of a write was there before, or is a directory on the way to
the artifact, the temporary file, or the artifact of a write that is done now. -/
theorem Job.Stroke.explained (h : job.Stroke d d' stage) (hvacant : IsVacant d₀ base top names)
    (hk : Keeps d₀ d) (hpath : (base.join names).IsLasting job.path dir name)
    (hfull : ∀ n, job.stage = .placing n →
      d.content? (Cache.temporary job.path) = some job.content)
    (hne : below ≠ []) (hthere : d'.get? (top ++ names ++ below) ≠ none) :
    d.get? (top ++ names ++ below) ≠ none ∨ below <+: dir ∨
      below = dir ++ [name ++ temporarySuffix] ∨ below = dir ++ [name] ∧ stage.isDone := by
  have hfree := hvacant.isFreeBelow.keeps hk
  have hkeeps := h.keeps hfree hpath hfull
  cases h with
  | grew _ _ grows =>
    rcases grows (top ++ names ++ below) with heq | ⟨-, hdirectory, q, hq, hlocate⟩
    · exact Or.inl (heq ▸ hthere)
    · rw [hpath.parent] at hq
      rcases hq.of_join with hq | ⟨above, hnil, habove, rfl⟩
      · exact absurd rfl (hvacant.ne_of_isAbove (hk.trans hkeeps) hq hlocate hdirectory hne)
      · have hplain : ∀ n ∈ above, IsPlain n := fun n hn =>
          hpath.plain n (List.mem_append_left _ (habove.subset hn))
        obtain ⟨top', hr, hplace, -⟩ := (hfree.keeps hkeeps).exists_place hnil hplain hlocate
        rw [hvacant.eq_of_rootAt (hk.trans hkeeps) hr] at hplace
        rw [List.append_cancel_left hplace]
        exact Or.inr (Or.inl habove)
  | wrote temp text _ located =>
    by_cases hplace : top ++ names ++ below = temp
    · rw [hpath.temporary] at located
      obtain ⟨top', hr, htemp, -⟩ := hfree.exists_place (by simp) hpath.plain_temporary located
      rw [hvacant.eq_of_rootAt hk hr, ← hplace] at htemp
      exact Or.inr (Or.inr (Or.inl (List.append_cancel_left htemp)))
    · rw [get?_set_ne hplace] at hthere
      exact Or.inl hthere
  | placed n old new e _ source target =>
    by_cases hnew : top ++ names ++ below = new
    · rw [hpath.path] at target
      obtain ⟨top', hr, hplace, -⟩ := hfree.exists_place (by simp) hpath.plain target
      rw [hvacant.eq_of_rootAt hk hr, ← hnew] at hplace
      exact Or.inr (Or.inr (Or.inr ⟨List.append_cancel_left hplace, rfl⟩))
    · by_cases hold : top ++ names ++ below = old
      · rw [get?_set_ne hnew, ← hold, get?_erase_self (by simp [hne])] at hthere
        exact absurd rfl hthere
      · rw [get?_set_ne hnew, get?_erase_ne hold] at hthere
        exact Or.inl hthere

namespace Cache

/-- A write of the cache accounts for an entry below the root: it is the artifact of one that is done,
or a temporary file, or a directory on the way to an artifact. -/
def Explains (c : Cache) (below : List String) : Prop :=
  ∃ (id : Nat) (job : Job) (dir : List String) (name : String), c.jobs[id]? = some job ∧
    c.root.IsLasting job.path dir name ∧ (below <+: dir ∨
      below = dir ++ [name ++ temporarySuffix] ∨ below = dir ++ [name] ∧ job.stage.isDone)

/-- Each entry below a place is accounted for. -/
def IsExplained (c : Cache) (site : List String) : Prop :=
  ∀ below, below ≠ [] → c.disk.get? (site ++ below) ≠ none → c.Explains below

theorem Explains.later (h : c.Explains below) (hop : c.Operation c') : c'.Explains below := by
  obtain ⟨id, job, dir, name, hj, hpath, hcases⟩ := h
  obtain ⟨job', hj', hlater⟩ := hop.books.exists_later hj
  refine ⟨id, job', dir, name, hj', ?_, hcases.imp_right (Or.imp_right fun ⟨hbelow, hdone⟩ => ?_)⟩
  · rwa [hop.sameWorld.root, hlater.path]
  · exact ⟨hbelow, hlater.isDone hdone⟩

/-- What leaves the disk alone leaves every entry accounted for. -/
theorem IsExplained.of_disk {site : List String} (h : c.IsExplained site) (hop : c.Operation c')
    (hdisk : c'.disk = c.disk) : c'.IsExplained site := by
  intro below hne hthere
  rw [hdisk] at hthere
  exact (h below hne hthere).later hop

/-- A step of a write accounts for what it brings. -/
theorem IsExplained.advance (h : c.IsExplained (top ++ names)) (hvacant : IsVacant d₀ base top names)
    (hk : Keeps d₀ c.disk) (hroot : c.root = base.join names) (hj : c.jobs[id]? = some job)
    (hf : job.stage.inFlight) (hpath : c.root.IsLasting job.path dir name)
    (hfull : ∀ n, job.stage = .placing n → c.disk.content? (temporary job.path) = some job.content) :
    (c.advance id).IsExplained (top ++ names) := by
  obtain ⟨stage, d', hturns, hstroke⟩ := exists_stroke_advance hj hf
  have hop : c.Operation (c.advance id) := .advance id
  have hnow : (c.advance id).jobs[id]? = some { job with stage } :=
    (getElem?_modify_jobs hj hturns.jobs).2 (Or.inr ⟨rfl, rfl⟩)
  have hlasting : (c.advance id).root.IsLasting job.path dir name := by
    rwa [hop.sameWorld.root]
  rw [hroot] at hpath
  intro below hne hthere
  rw [hturns.disk] at hthere
  rcases hstroke.explained hvacant hk hpath hfull hne hthere with hbefore | hbrought
  · exact (h below hne hbefore).later hop
  · exact ⟨id, _, dir, name, hnow, hlasting, hbrought⟩

end Cache
end Vacant
end SchemaArtifacts
