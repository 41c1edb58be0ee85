import SchemaArtifacts.Proofs.Cache.Chance
import SchemaArtifacts.Proofs.Cache.Content
import SchemaArtifacts.Proofs.Disk.Site

/-!
# A write on two disks

What a write does depends on little of the disk: on the directories to its artifact, and on the
entries in the places of its artifact and of its temporary file. Two disks that agree on these, but
for directories that somebody else has made on one of them, are twins for the write: it takes the
same steps on both, and they stay twins. The writes of artifacts that keep apart do nothing that
would matter.

## Main definitions

* `AbsolutePath.IsApart` — two artifacts that are not in each other's way
* `Stage.hasWay` — the directories to an artifact were made
* `Disk.Hosts` — a disk with the directories of another, and maybe more
* `Disk.Twin` — two disks that are the same for a write

## Main results

* `Job.Stroke.at_site` — what a step of a write changes below a site
* `Disk.Twin.stroke` — writes of other artifacts leave twins twins
* `Disk.Twin.next` — a write takes the same step on twins
-/

namespace SchemaArtifacts

open Disk

/-- Two artifacts that are not in each other's way: they differ, and no directory to one is the
artifact or the temporary file of the other. -/
structure AbsolutePath.IsApart (p q : AbsolutePath) : Prop where
  ne : p ≠ q
  artifact : ¬ p.IsAbove q.parent
  temporary : ¬ (Cache.temporary p).IsAbove q.parent
  artifact' : ¬ q.IsAbove p.parent
  temporary' : ¬ (Cache.temporary q).IsAbove p.parent

theorem AbsolutePath.isAbove_iff {p q : AbsolutePath} :
    p.IsAbove q ↔ p.doubled = q.doubled ∧ p.parts <+: q.parts :=
  ⟨fun h => ⟨h.doubled, h.parts⟩, fun h => ⟨h.1, h.2⟩⟩

instance (p q : AbsolutePath) : Decidable (p.IsAbove q) :=
  decidable_of_iff _ AbsolutePath.isAbove_iff.symm

theorem AbsolutePath.IsApart.symm {p q : AbsolutePath} (h : p.IsApart q) : q.IsApart p :=
  ⟨h.ne.symm, h.artifact', h.temporary', h.artifact, h.temporary⟩

theorem AbsolutePath.isApart_iff {p q : AbsolutePath} : p.IsApart q ↔ p ≠ q ∧
    ¬ p.IsAbove q.parent ∧ ¬ (Cache.temporary p).IsAbove q.parent ∧ ¬ q.IsAbove p.parent ∧
      ¬ (Cache.temporary q).IsAbove p.parent :=
  ⟨fun h => ⟨h.ne, h.artifact, h.temporary, h.artifact', h.temporary'⟩,
    fun h => ⟨h.1, h.2.1, h.2.2.1, h.2.2.2.1, h.2.2.2.2⟩⟩

instance (p q : AbsolutePath) : Decidable (p.IsApart q) :=
  decidable_of_iff _ AbsolutePath.isApart_iff.symm

/-- The directories to the artifact of a write were made. -/
def Stage.hasWay (stage : Stage) : Bool :=
  match stage with
  | .opening _ | .filling _ | .closing _ | .placing _ => true
  | _ => false

theorem isAbove_join_iff {base : AbsolutePath} {names dir : List String} :
    (base.join names).IsAbove (base.join dir) ↔ names <+: dir := by
  rw [AbsolutePath.isAbove_iff]
  simp [AbsolutePath.join]

theorem Disk.Site.isFreeBelow {d : Disk} {base : AbsolutePath} {top : List String}
    (h : Site d base top) : IsFreeBelow d base :=
  isFreeBelow_of_isLinkFree h.linkFree base

namespace Job

variable {base : AbsolutePath} {job : Job} {d d' : Disk} {stage : Stage} {top dir : List String}
  {name : String}

/-- What a step of a write changes below a site: directories are made on the way to its artifact,
and its own two files change. -/
theorem Stroke.at_site (h : job.Stroke d d' stage) (hsite : Site d base top)
    (hpath : base.IsLasting job.path dir name) (place : List String) :
    d'.get? place = d.get? place ∨
      (d.get? place = none ∧ d'.get? place = some .directory ∧
        ∃ above, above <+: dir ∧ place = top ++ above) ∨
      place = top ++ (dir ++ [name]) ∨ place = top ++ (dir ++ [name ++ temporarySuffix]) := by
  cases h with
  | grew _ _ grows =>
    rw [hpath.parent] at grows
    have hplain : ∀ n ∈ dir, IsPlain n := fun n hn => hpath.plain n (List.mem_append_left _ hn)
    exact (grows.at_site hsite hplain place).imp_right Or.inl
  | wrote temp text _ located =>
    rw [hpath.temporary] at located
    have htemp := place_of_locate_join hsite.rootAt hsite.isLinkFree (by simp)
      hpath.plain_temporary located
    by_cases hplace : place = temp
    · exact Or.inr (Or.inr (Or.inr (hplace.trans htemp)))
    · exact Or.inl (get?_set_ne hplace)
  | placed n old new e _ source target =>
    rw [hpath.temporary] at source
    rw [hpath.path] at target
    have hold := place_of_locate_join hsite.rootAt hsite.isLinkFree (by simp)
      hpath.plain_temporary source
    have hnew := place_of_locate_join hsite.rootAt hsite.isLinkFree (by simp) hpath.plain target
    by_cases hplace : place = new
    · exact Or.inr (Or.inr (Or.inl (hplace.trans hnew)))
    · by_cases hplace' : place = old
      · exact Or.inr (Or.inr (Or.inr (hplace'.trans hold)))
      · exact Or.inl ((get?_set_ne hplace).trans (get?_erase_ne hplace'))

/-- A step of a write leaves every entry in a directory. -/
theorem Stroke.isTree (h : job.Stroke d d' stage) (hsite : Site d base top)
    (hfull : ∀ n, job.stage = .placing n →
      d.content? (Cache.temporary job.path) = some job.content) : IsTree d' := by
  cases h with
  | grew _ _ grows => exact grows.isTree hsite.tree
  | wrote temp text _ located free =>
    exact hsite.tree.set (get?_dropLast_of_locate located) (Or.inr free)
  | placed n old new e ready source target entry free =>
    obtain ⟨place, hlocate, hfile⟩ := content?_eq_some_iff.1 (hfull n ready)
    cases ((locate_itself hsite.linkFree _).symm.trans source).symm.trans hlocate
    have hold : d.get? old ≠ some .directory := by simp [hfile]
    have herase : IsTree (d.erase old) := hsite.tree.erase hold
    have hparent := get?_dropLast_of_locate target
    apply herase.set
    · rw [get?_erase_ne, hparent]
      intro heq
      rw [heq] at hparent
      exact hold hparent
    · refine Or.inr fun hdirectory => ?_
      by_cases heq : new = old
      · have hne : old ≠ [] := by
          rintro rfl
          exact hold (get?_nil d)
        rw [heq, get?_erase_self hne] at hdirectory
        cases hdirectory
      · rw [get?_erase_ne heq] at hdirectory
        exact free hdirectory

theorem Stroke.site (h : job.Stroke d d' stage) (hsite : Site d base top)
    (hpath : base.IsLasting job.path dir name) (hfull : ∀ n, job.stage = .placing n →
      d.content? (Cache.temporary job.path) = some job.content) : Site d' base top :=
  hsite.keeps (h.keeps hsite.isFreeBelow hpath hfull) (h.isTree hsite hfull)

end Job

namespace Disk

variable {base path other : AbsolutePath} {job : Job} {d₀ d d' : Disk} {stage : Stage}
  {top dir dir' : List String} {name name' : String}

/-- A disk with what another has on the way to a place below a site, and maybe more directories. -/
structure Hosts (d₀ d : Disk) (base : AbsolutePath) (top dir : List String) : Prop where
  site : Site d base top
  ahead : ∀ above, above <+: dir → Ahead d₀ d (top ++ above)

theorem Site.hosts (h : Site d base top) (dir : List String) : Hosts d d base top dir :=
  ⟨h, fun _ _ => Or.inl rfl⟩

/-- A step of a write whose artifact is not on the way changes nothing on the way, but for more
directories. -/
theorem Hosts.stroke (h : Hosts d₀ d base top dir) (hstroke : job.Stroke d d' stage)
    (hpath : base.IsLasting job.path dir' name') (hartifact : ¬ dir' ++ [name'] <+: dir)
    (htemporary : ¬ dir' ++ [name' ++ temporarySuffix] <+: dir)
    (hfull : ∀ n, job.stage = .placing n →
      d.content? (Cache.temporary job.path) = some job.content) : Hosts d₀ d' base top dir := by
  refine ⟨hstroke.site h.site hpath hfull, fun above habove => ?_⟩
  have hbefore := h.ahead above habove
  rcases hstroke.at_site h.site hpath (top ++ above) with heq | ⟨hnone, hdirectory, -⟩ | heq | heq
  · rw [Ahead, heq]
    exact hbefore
  · exact hbefore.trans (Or.inr ⟨hnone, hdirectory⟩)
  · rw [← List.append_cancel_left heq] at hartifact
    exact absurd habove hartifact
  · rw [← List.append_cancel_left heq] at htemporary
    exact absurd habove htemporary

/-- Two disks that are the same for the write of an artifact: on the way to it both have what a
third has, and maybe more directories; in its place, and in that of its temporary file, they have
the same. -/
structure Twin (d₀ : Disk) (base : AbsolutePath) (top dir : List String) (name : String)
    (d d' : Disk) : Prop where
  origin : Site d₀ base top
  left : Hosts d₀ d base top dir
  right : Hosts d₀ d' base top dir
  artifact : d'.get? (top ++ (dir ++ [name])) = d.get? (top ++ (dir ++ [name]))
  temporary : d'.get? (top ++ (dir ++ [name ++ temporarySuffix])) =
    d.get? (top ++ (dir ++ [name ++ temporarySuffix]))

theorem Site.twin (h : Site d base top) (dir : List String) (name : String) :
    Twin d base top dir name d d :=
  ⟨h, h.hosts dir, h.hosts dir, rfl, rfl⟩

/-- What the path of the artifact leads to is the same on twins. -/
theorem Twin.entryAt? (h : Twin d₀ base top dir name d d') (hpath : base.IsLasting path dir name) :
    d'.entryAt? path = d.entryAt? path := by
  rw [hpath.path]
  exact entryAt?_join_congr h.left.site.rootAt h.right.site.rootAt h.left.site.isLinkFree
    h.right.site.isLinkFree h.left.site.tree h.right.site.tree (by simp) hpath.plain h.artifact

theorem Twin.exists_ (h : Twin d₀ base top dir name d d') (hpath : base.IsLasting path dir name) :
    d'.exists_ path = d.exists_ path := by
  unfold Disk.exists_
  rw [h.entryAt? hpath]

theorem Twin.content? (h : Twin d₀ base top dir name d d') (hpath : base.IsLasting path dir name) :
    d'.content? path = d.content? path := by
  unfold Disk.content?
  rw [h.entryAt? hpath]

/-- The write of an artifact that keeps apart changes nothing in the place of another. -/
theorem get?_of_stroke_of_isApart (hstroke : job.Stroke d d' stage) (hsite : Site d base top)
    (hjob : base.IsLasting job.path dir' name') (hpath : base.IsLasting path dir name)
    (hapart : path.IsApart job.path) :
    d'.get? (top ++ (dir ++ [name])) = d.get? (top ++ (dir ++ [name])) ∧
      d'.get? (top ++ (dir ++ [name ++ temporarySuffix])) =
        d.get? (top ++ (dir ++ [name ++ temporarySuffix])) := by
  have hartifact : ¬ dir ++ [name] <+: dir' := by
    have h := hapart.artifact
    rwa [hjob.parent, hpath.path, isAbove_join_iff] at h
  have htemporary : ¬ dir ++ [name ++ temporarySuffix] <+: dir' := by
    have h := hapart.temporary
    rwa [hjob.parent, hpath.temporary, isAbove_join_iff] at h
  obtain ⟨hne, hne'⟩ := hpath.ne_of_ne hjob hapart.ne top
  constructor
  · rcases hstroke.at_site hsite hjob (top ++ (dir ++ [name])) with
      heq | ⟨-, -, above, habove, heq⟩ | heq | heq
    · exact heq
    · rw [← List.append_cancel_left heq] at habove
      exact absurd habove hartifact
    · exact absurd heq hne
    · exact absurd heq.symm (hpath.temporary_ne top dir' name')
  · rcases hstroke.at_site hsite hjob (top ++ (dir ++ [name ++ temporarySuffix])) with
      heq | ⟨-, -, above, habove, heq⟩ | heq | heq
    · exact heq
    · rw [← List.append_cancel_left heq] at habove
      exact absurd habove htemporary
    · exact absurd heq (hjob.temporary_ne top dir name)
    · exact absurd heq hne'

theorem Hosts.stroke_of_isApart (h : Hosts d₀ d base top dir) (hstroke : job.Stroke d d' stage)
    (hjob : base.IsLasting job.path dir' name') (hpath : base.IsLasting path dir name)
    (hapart : path.IsApart job.path) (hfull : ∀ n, job.stage = .placing n →
      d.content? (Cache.temporary job.path) = some job.content) : Hosts d₀ d' base top dir := by
  refine h.stroke hstroke hjob ?_ ?_ hfull
  · have h := hapart.artifact'
    rwa [hpath.parent, hjob.path, isAbove_join_iff] at h
  · have h := hapart.temporary'
    rwa [hpath.parent, hjob.temporary, isAbove_join_iff] at h

/-- The write of an artifact that keeps apart leaves twins twins. -/
theorem Twin.stroke {d₁ : Disk} (h : Twin d₀ base top dir name d d')
    (hstroke : job.Stroke d d₁ stage) (hjob : base.IsLasting job.path dir' name')
    (hpath : base.IsLasting path dir name) (hapart : path.IsApart job.path)
    (hfull : ∀ n, job.stage = .placing n →
      d.content? (Cache.temporary job.path) = some job.content) :
    Twin d₀ base top dir name d₁ d' := by
  obtain ⟨hartifact, htemporary⟩ := get?_of_stroke_of_isApart hstroke h.left.site hjob hpath hapart
  refine ⟨h.origin, h.left.stroke_of_isApart hstroke hjob hpath hapart hfull, h.right, ?_, ?_⟩
  · rw [h.artifact, hartifact]
  · rw [h.temporary, htemporary]

/-- Two outcomes for the write of an artifact agree. -/
structure Agree {α : Type} (top dir : List String) (name : String) (outcome outcome' : α × Disk) :
    Prop where
  result : outcome'.1 = outcome.1
  artifact : outcome'.2.get? (top ++ (dir ++ [name])) = outcome.2.get? (top ++ (dir ++ [name]))
  temporary : outcome'.2.get? (top ++ (dir ++ [name ++ temporarySuffix])) =
    outcome.2.get? (top ++ (dir ++ [name ++ temporarySuffix]))

theorem Agree.after {outcome outcome' : Except Failure Unit × Disk}
    (h : Agree top dir name outcome outcome') (b : Backoff) (x y : Binary64) (attempt : Nat)
    (next : Stage) : Agree top dir name (Stage.after b (.real x) attempt next outcome)
      (Stage.after b (.real y) attempt next outcome') := by
  refine ⟨Stage.after_congr b x y attempt next h.result, ?_, ?_⟩
  · rw [Stage.after_snd, Stage.after_snd, h.artifact]
  · rw [Stage.after_snd, Stage.after_snd, h.temporary]

/-- Filling the temporary file ends in the same way on twins. -/
theorem Twin.write (h : Twin d₀ base top dir name d d') (hfirm : IsFirm d (top ++ dir))
    (hfirm' : IsFirm d' (top ++ dir)) (hpath : base.IsLasting path dir name) (text : String) :
    Agree top dir name ((DiskM.write (Cache.temporary path) text).run d)
      ((DiskM.write (Cache.temporary path) text).run d') := by
  have hne : top ++ (dir ++ [name]) ≠ top ++ (dir ++ [name ++ temporarySuffix]) :=
    (hpath.temporary_ne top dir name).symm
  have hnil : top ++ (dir ++ [name ++ temporarySuffix]) ≠ [] := by simp
  rw [hpath.temporary, DiskM.run_write, DiskM.run_write,
    h.left.site.locate_of_isFirm hfirm hpath.plain_temporary,
    h.right.site.locate_of_isFirm hfirm' hpath.plain_temporary]
  split
  · rename_i place hplace
    split at hplace
    · cases hplace
      rw [h.temporary]
      split
      · exact ⟨rfl, h.artifact, h.temporary⟩
      · refine ⟨rfl, ?_, ?_⟩
        · rw [get?_set_ne hne, get?_set_ne hne, h.artifact]
        · rw [get?_set_self hnil, get?_set_self hnil]
    · cases hplace
  · exact ⟨rfl, h.artifact, h.temporary⟩

/-- Placing the artifact ends in the same way on twins. -/
theorem Twin.rename (h : Twin d₀ base top dir name d d') (hfirm : IsFirm d (top ++ dir))
    (hfirm' : IsFirm d' (top ++ dir)) (hpath : base.IsLasting path dir name) :
    Agree top dir name ((DiskM.rename (Cache.temporary path) path).run d)
      ((DiskM.rename (Cache.temporary path) path).run d') := by
  have hne : top ++ (dir ++ [name ++ temporarySuffix]) ≠ top ++ (dir ++ [name]) :=
    hpath.temporary_ne top dir name
  have hnil : top ++ (dir ++ [name]) ≠ [] := by simp
  have hnil' : top ++ (dir ++ [name ++ temporarySuffix]) ≠ [] := by simp
  have htemporary := hpath.temporary
  have hplain := hpath.plain
  have hplain' := hpath.plain_temporary
  obtain ⟨rfl, -, -⟩ := hpath
  rw [htemporary, DiskM.run_rename, DiskM.run_rename,
    h.left.site.locate_of_isFirm hfirm hplain',
    h.right.site.locate_of_isFirm hfirm' hplain',
    h.left.site.locate_of_isFirm hfirm hplain,
    h.right.site.locate_of_isFirm hfirm' hplain]
  split
  · rename_i old new hold hnew
    split at hold
    · split at hnew
      · cases hold
        cases hnew
        rw [h.temporary, h.artifact]
        split
        · exact ⟨rfl, h.artifact, h.temporary⟩
        · exact ⟨rfl, h.artifact, h.temporary⟩
        · refine ⟨rfl, ?_, ?_⟩
          · rw [get?_set_self hnil, get?_set_self hnil]
          · rw [get?_set_ne hne, get?_set_ne hne, get?_erase_self hnil', get?_erase_self hnil']
      · cases hnew
    · cases hold
  · exact ⟨rfl, h.artifact, h.temporary⟩
  · exact ⟨rfl, h.artifact, h.temporary⟩

/-- A step of the write itself changes nothing on the way, but for more directories. -/
theorem Hosts.stroke_self (h : Hosts d₀ d base top dir) (hstroke : job.Stroke d d' stage)
    (hpath : base.IsLasting job.path dir name) (hfull : ∀ n, job.stage = .placing n →
      d.content? (Cache.temporary job.path) = some job.content) : Hosts d₀ d' base top dir :=
  h.stroke hstroke hpath (concat_not_above dir name) (concat_not_above dir _) hfull

/-- More directories on the way make no difference to the files of a write. -/
theorem Twin.agree_of_grows {α : Type} {d₁ d₁' : Disk} {result result' : α}
    (h : Twin d₀ base top dir name d d') (hpath : base.IsLasting path dir name)
    (hgrows : GrowsToward path.parent d d₁) (hgrows' : GrowsToward path.parent d' d₁')
    (hresult : result' = result) : Agree top dir name (result, d₁) (result', d₁') := by
  have hplain : ∀ n ∈ dir, IsPlain n := fun n hn => hpath.plain n (List.mem_append_left _ hn)
  rw [hpath.parent] at hgrows hgrows'
  refine ⟨hresult, ?_, ?_⟩
  · rw [hgrows.get?_concat h.left.site hplain, hgrows'.get?_concat h.right.site hplain, h.artifact]
  · rw [hgrows.get?_concat h.left.site hplain, hgrows'.get?_concat h.right.site hplain, h.temporary]

/-- Making the directories to an artifact ends in the same way on twins. -/
theorem Twin.makeDirectories (h : Twin d₀ base top dir name d d')
    (hpath : base.IsLasting path dir name) :
    Agree top dir name ((DiskM.makeDirectories path.parent).run d)
      ((DiskM.makeDirectories path.parent).run d') := by
  have hplain : ∀ n ∈ dir, IsPlain n := fun n hn => hpath.plain n (List.mem_append_left _ hn)
  refine h.agree_of_grows hpath (growsToward_makeDirectories _ d) (growsToward_makeDirectories _ d') ?_
  rw [hpath.parent]
  exact (h.origin.makeDirectories_congr h.right.site hplain h.right.ahead).trans
    (h.origin.makeDirectories_congr h.left.site hplain h.left.ahead).symm

/-- The directories to an artifact are there on both of two disks. -/
def AreFirm (d d' : Disk) (place : List String) : Prop := IsFirm d place ∧ IsFirm d' place

/-- What a try does at a moment ends in the same way on twins, if the directories are there on both
when it is past making them. -/
theorem Twin.agree_task (h : Twin d₀ base top dir name d d')
    (hpath : base.IsLasting job.path dir name) {moment : Moment}
    (hway : moment ≠ .beginning → moment ≠ .directories → AreFirm d d' (top ++ dir)) :
    Agree top dir name ((job.task moment).run d) ((job.task moment).run d') := by
  cases moment with
  | directories => exact h.makeDirectories hpath
  | opening => exact h.write (hway (by simp) (by simp)).1 (hway (by simp) (by simp)).2 hpath ""
  | closing =>
    exact h.write (hway (by simp) (by simp)).1 (hway (by simp) (by simp)).2 hpath job.content
  | placing => exact h.rename (hway (by simp) (by simp)).1 (hway (by simp) (by simp)).2 hpath
  | beginning | filling => exact ⟨rfl, h.artifact, h.temporary⟩

/-- What a try that is broken off has done to its files is the same on twins. -/
theorem Twin.agree_remnant {α : Type} (h : Twin d₀ base top dir name d d')
    (hpath : base.IsLasting job.path dir name) {moment : Moment}
    (hway : moment ≠ .beginning → moment ≠ .directories → AreFirm d d' (top ++ dir))
    (progress : Nat) (result : α) :
    Agree top dir name (result, ((job.remnant progress moment).run d).2)
      (result, ((job.remnant progress moment).run d').2) := by
  have hwrite (hpast : moment ≠ .beginning) (hpast' : moment ≠ .directories) (text : String) :
      Agree top dir name (result, ((DiskM.write (Cache.temporary job.path) text).run d).2)
        (result, ((DiskM.write (Cache.temporary job.path) text).run d').2) := by
    have hagree := h.write (hway hpast hpast').1 (hway hpast hpast').2 hpath text
    exact ⟨rfl, hagree.artifact, hagree.temporary⟩
  cases moment with
  | directories =>
    exact h.agree_of_grows hpath
      ((growsToward_makeDirectories _ d).of_isAbove (isAbove_take _ progress))
      ((growsToward_makeDirectories _ d').of_isAbove (isAbove_take _ progress)) rfl
  | opening =>
    cases progress with
    | zero => exact ⟨rfl, h.artifact, h.temporary⟩
    | succ progress => exact hwrite (by simp) (by simp) ""
  | filling | closing => exact hwrite (by simp) (by simp) _
  | beginning | placing => exact ⟨rfl, h.artifact, h.temporary⟩

theorem Twin.agree_perform (h : Twin d₀ base top dir name d d')
    (hpath : base.IsLasting job.path dir name) {moment : Moment}
    (hway : moment ≠ .beginning → moment ≠ .directories → AreFirm d d' (top ++ dir))
    (fault : Moment → Option Interruption) :
    Agree top dir name ((job.perform fault moment).run d) ((job.perform fault moment).run d') := by
  cases hfault : fault moment with
  | some broken =>
    rw [Job.run_perform_of_some hfault, Job.run_perform_of_some hfault]
    exact h.agree_remnant hpath hway broken.progress _
  | none =>
    have hagree := h.agree_task hpath hway
    rw [Job.run_perform_of_none hfault, Job.run_perform_of_none hfault]
    exact ⟨by rw [hagree.result], hagree.artifact, hagree.temporary⟩

theorem Twin.agree_makeWay (h : Twin d₀ base top dir name d d')
    (hpath : base.IsLasting job.path dir name) (fault : Moment → Option Interruption) :
    Agree top dir name ((job.makeWay fault).run d) ((job.makeWay fault).run d') := by
  cases hbegin : fault .beginning with
  | some broken =>
    rw [Job.run_makeWay_of_some hbegin, Job.run_makeWay_of_some hbegin]
    exact ⟨rfl, h.artifact, h.temporary⟩
  | none =>
    rw [Job.run_makeWay_of_none hbegin, Job.run_makeWay_of_none hbegin]
    exact h.agree_perform hpath (fun _ hpast => absurd rfl hpast) fault

end Disk

theorem Stage.hasWay_setBack (b : Backoff) (draw : Number) (attempt : Nat) (e : Failure) :
    (Stage.setBack b draw attempt e).hasWay = false := by
  unfold setBack
  split
  · split <;> rfl
  · rfl

theorem Stage.eq_ok_of_hasWay_after {b : Backoff} {draw : Number} {attempt : Nat} {next : Stage}
    {outcome : Except Failure Unit × Disk} (h : (Stage.after b draw attempt next outcome).1.hasWay) :
    outcome.1 = .ok () := by
  obtain ⟨result, d⟩ := outcome
  cases result with
  | ok _ => rfl
  | error e =>
    rw [after, hasWay_setBack] at h
    cases h

namespace Disk

variable {base : AbsolutePath} {job : Job} {d₀ d d' : Disk} {top dir : List String} {name : String}

theorem AreFirm.of_ok (hsite : Site d base top) (hsite' : Site d' base top)
    (hplain : ∀ n ∈ dir, IsPlain n)
    (h : ((DiskM.makeDirectories (base.join dir)).run d).1 = .ok ())
    (h' : ((DiskM.makeDirectories (base.join dir)).run d').1 = .ok ()) :
    AreFirm ((DiskM.makeDirectories (base.join dir)).run d).2
      ((DiskM.makeDirectories (base.join dir)).run d').2 (top ++ dir) := by
  have hpaved := hsite.paved hplain
  have hpaved' := hsite'.paved hplain
  rw [h] at hpaved
  rw [h'] at hpaved'
  cases hpaved with
  | firm there =>
    cases hpaved' with
    | firm there' => exact ⟨there, there'⟩

/-- A write comes to the same stage on twins, and does the same to its files. -/
theorem Twin.agree_next (h : Twin d₀ base top dir name d d')
    (hpath : base.IsLasting job.path dir name)
    (hway : job.stage.hasWay → AreFirm d d' (top ++ dir)) (b : Backoff)
    (fault : Moment → Option Interruption) (x y : Binary64) :
    Agree top dir name (job.next b fault (.real x) d) (job.next b fault (.real y) d') := by
  unfold Job.next
  cases hstage : job.stage with
  | ready n => exact (h.agree_makeWay hpath fault).after b x y n _
  | resting n => exact ⟨rfl, h.artifact, h.temporary⟩
  | ended outcome => exact ⟨rfl, h.artifact, h.temporary⟩
  | _ n => exact (h.agree_perform hpath (fun _ _ => hway (by rw [hstage]; rfl)) fault).after b x y n _

/-- When a step of a write leaves it with the directories made, they are there on both twins. -/
theorem Twin.areFirm_next (h : Twin d₀ base top dir name d d')
    (hpath : base.IsLasting job.path dir name)
    (hway : job.stage.hasWay → AreFirm d d' (top ++ dir)) (b : Backoff)
    (fault : Moment → Option Interruption) (x y : Binary64)
    (hkeeps : Keeps d (job.next b fault (.real x) d).2)
    (hkeeps' : Keeps d' (job.next b fault (.real y) d').2)
    (hnext : (job.next b fault (.real x) d).1.hasWay) :
    AreFirm (job.next b fault (.real x) d).2 (job.next b fault (.real y) d').2 (top ++ dir) := by
  have hagree := h.agree_next hpath hway b fault x y
  -- Directories stay once they are there. So they can only be new where the step has made them, and
  -- then it has ended well on both.
  cases hbefore : job.stage.hasWay with
  | true => exact (hway hbefore).imp (IsFirm.keeps · hkeeps) (IsFirm.keeps · hkeeps')
  | false =>
    have hnext' := hnext
    rw [← hagree.result] at hnext'
    unfold Job.next at hnext hnext' ⊢
    cases hstage : job.stage with
    | ready n =>
      rw [hstage] at hnext hnext'
      obtain ⟨hok, hdisk⟩ := Job.run_makeDirectories_of_makeWay (Stage.eq_ok_of_hasWay_after hnext)
      obtain ⟨hok', hdisk'⟩ := Job.run_makeDirectories_of_makeWay (Stage.eq_ok_of_hasWay_after hnext')
      dsimp only
      rw [Stage.after_snd, Stage.after_snd, hdisk, hdisk']
      rw [hpath.parent] at hok hok' ⊢
      exact .of_ok h.left.site h.right.site
        (fun n hn => hpath.plain n (List.mem_append_left _ hn)) hok hok'
    | resting n =>
      rw [hstage] at hnext
      cases hnext
    | ended outcome =>
      rw [hstage] at hnext
      cases hnext
    | _ =>
      rw [hstage] at hbefore
      cases hbefore

/-- A write takes the same step on twins, and they stay twins. -/
theorem Twin.next (h : Twin d₀ base top dir name d d') (hpath : base.IsLasting job.path dir name)
    (hf : job.stage.inFlight) (hway : job.stage.hasWay → AreFirm d d' (top ++ dir))
    (hfull : ∀ n, job.stage = .placing n →
      d.content? (Cache.temporary job.path) = some job.content)
    (hfull' : ∀ n, job.stage = .placing n →
      d'.content? (Cache.temporary job.path) = some job.content)
    (b : Backoff) (fault : Moment → Option Interruption) (x y : Binary64) :
    (job.next b fault (.real y) d').1 = (job.next b fault (.real x) d).1 ∧
      Twin d₀ base top dir name (job.next b fault (.real x) d).2 (job.next b fault (.real y) d').2 ∧
      ((job.next b fault (.real x) d).1.hasWay →
        AreFirm (job.next b fault (.real x) d).2 (job.next b fault (.real y) d').2 (top ++ dir)) := by
  have hstroke := job.stroke_next hf b fault (.real x) d
  have hstroke' := job.stroke_next hf b fault (.real y) d'
  have hagree := h.agree_next hpath hway b fault x y
  refine ⟨hagree.result, ⟨h.origin, h.left.stroke_self hstroke hpath hfull,
    h.right.stroke_self hstroke' hpath hfull', hagree.artifact, hagree.temporary⟩, ?_⟩
  exact h.areFirm_next hpath hway b fault x y (hstroke.keeps h.left.site.isFreeBelow hpath hfull)
    (hstroke'.keeps h.right.site.isFreeBelow hpath hfull')

end Disk
end SchemaArtifacts
