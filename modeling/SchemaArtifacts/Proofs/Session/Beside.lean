import SchemaArtifacts.Proofs.Session.Confined

/-!
# Writes beside each other

A write has two files: its artifact and the temporary file beside it. Writes of different paths may
still share a file, when the temporary file of one is the artifact of the other. A file at a path
keeps its text as long as no such write takes a step; and a write that ends well takes away whatever
file it has found in the place of its temporary file.

## Main definitions

* `AbsolutePath.Spares` — the write of a path shares no file with that of another
* `Cache.Tends` — the files of the writes of a path are there, except for those that are lost

## Main results

* `Cache.IsConfined.content?_advance` — a step of a write keeps the text of every file but its own
* `Cache.IsConfined.content?_temporary_advance` — a write that ends well has no temporary file
* `Cache.Tends.operation` — writes that spare a path leave its files there
-/

namespace SchemaArtifacts

open Cache Disk

/-- The write of a path shares no file with that of another. -/
structure AbsolutePath.Spares (q p : AbsolutePath) : Prop where
  artifact : q ≠ temporary p
  temporary : Cache.temporary q ≠ p

/-- The temporary file of a path within a root is not the path itself. -/
theorem AbsolutePath.IsWithin.temporary_ne {root p : AbsolutePath} (h : root.IsWithin p) :
    Cache.temporary p ≠ p := by
  obtain ⟨dir, name, rfl, -⟩ := h.exists_concat
  intro heq
  rw [temporary_join] at heq
  have hlast := (List.append_inj' (List.append_cancel_left (congrArg AbsolutePath.parts heq)) rfl).2
  have hname := congrArg (fun s : String => s.toList.length) (List.singleton_inj.1 hlast)
  simp [String.toList_append, temporarySuffix] at hname

namespace Job

variable {root other : AbsolutePath} {job : Job} {d d' : Disk} {stage : Stage} {x : String}

/-- A step of a write to a path within a root leaves the text of every file within the root alone,
unless it is one of its own two. -/
theorem Stroke.content?_of_isWithin (h : job.Stroke d d' stage) (hfree : IsFreeBelow d root)
    (hpath : root.IsWithin job.path)
    (hfile : ∀ n, job.stage = .placing n → ∃ x, d.content? (temporary job.path) = some x)
    (hother : root.IsWithin other) (hne : other ≠ job.path) (hne' : other ≠ temporary job.path)
    (hx : d.content? other = some x) : d'.content? other = some x := by
  obtain ⟨dir, name, hjoin, hparts⟩ := hpath.exists_concat
  obtain ⟨names, hnames, hparts', rfl⟩ := hother
  apply h.content?_of_names_ne hfree hjoin (fun n hn => (hparts n hn).isPlain) hfile
    (fun n hn => (hparts' n hn).isPlain) hnames _ _ hx
  · rintro rfl
    exact hne hjoin.symm
  · rintro rfl
    exact hne' (by rw [hjoin, temporary_join])

/-- When a write has ended well, there is no file in the place of its temporary file. -/
theorem Stroke.content?_temporary_of_done (h : job.Stroke d d' stage) (hfree : IsFreeBelow d root)
    (hpath : root.IsWithin job.path)
    (hfile : ∀ n, job.stage = .placing n → ∃ x, d.content? (temporary job.path) = some x)
    (hdone : stage.isDone) : d'.content? (temporary job.path) = none := by
  have hkeeps := (h.changesBelow hfree hpath hfile).1
  cases h with
  | grew _ _ _ notDone =>
    rw [notDone] at hdone
    cases hdone
  | wrote _ _ _ _ _ notDone =>
    rw [notDone] at hdone
    cases hdone
  | placed n old new e ready source target entry free =>
    obtain ⟨dir, name, hjoin, hparts⟩ := hpath.exists_concat
    have hplain : ∀ n ∈ dir ++ [name], IsPlain n := fun n hn => (hparts n hn).isPlain
    rw [hjoin, temporary_join] at source ⊢
    rw [hjoin] at target
    obtain ⟨top, hr, hold, hsource⟩ :=
      hfree.exists_place (by simp) (plain_concat_temporarySuffix hplain) source
    obtain ⟨top', hr', hnew, -⟩ := hfree.exists_place (by simp) hplain target
    have hapart : old ≠ new := by
      rw [hold, hnew, hr.unique hr']
      intro heq
      apply hpath.temporary_ne
      rw [hjoin, temporary_join, List.append_cancel_left heq]
    have hgone : (((d.erase old).set new e).get? old) = none := by
      rw [get?_set_ne hapart, get?_erase_self (by simp [hold])]
    cases hx : ((d.erase old).set new e).content? (root.join (dir ++ [name ++ temporarySuffix])) with
    | none => rfl
    | some x =>
      obtain ⟨place, hlocate, hfile⟩ := content?_eq_some_iff.1 hx
      cases (hkeeps.locate (hsource .behind)).symm.trans hlocate
      rw [hgone] at hfile
      cases hfile

end Job

namespace Cache

variable {c c' : Cache} {id : Nat} {job : Job} {path : AbsolutePath} {x : String}

/-- A step of a write keeps the text of every file but its own two. -/
theorem IsConfined.content?_advance (h : c.IsConfined) (hj : c.jobs[id]? = some job)
    (hf : job.stage.inFlight) (hpath : c.root.IsWithin path) (hne : path ≠ job.path)
    (hne' : path ≠ temporary job.path) (hx : c.disk.content? path = some x) :
    (c.advance id).disk.content? path = some x := by
  obtain ⟨stage, d', hturns, hstroke⟩ := exists_stroke_advance hj hf
  rw [hturns.disk]
  exact hstroke.content?_of_isWithin h.free (h.within job (List.mem_of_getElem? hj))
    (fun n => h.placing id job n hj) hpath hne hne' hx

/-- A write that ends well leaves no file in the place of its temporary file. -/
theorem IsConfined.content?_temporary_advance (h : c.IsConfined) (hj : c.jobs[id]? = some job)
    (hf : job.stage.inFlight) {job' : Job} (hj' : (c.advance id).jobs[id]? = some job')
    (hdone : job'.stage.isDone) : (c.advance id).disk.content? (temporary job.path) = none := by
  obtain ⟨stage, d', hturns, hstroke⟩ := exists_stroke_advance hj hf
  obtain ⟨hne, -⟩ | ⟨-, rfl⟩ := (getElem?_modify_jobs hj hturns.jobs).1 hj'
  · exact absurd rfl hne
  · rw [hturns.disk]
    exact hstroke.content?_temporary_of_done h.free (h.within job (List.mem_of_getElem? hj))
      (fun n => h.placing id job n hj) hdone

/-- The files of the writes of a path are there: the temporary file of one that is about to place its
artifact, and the artifact of one that is done, unless it is lost. -/
structure Tends (lost : Nat → String → Prop) (c : Cache) (path : AbsolutePath) : Prop where
  filled : ∀ (id : Nat) (job : Job) (n : Nat), c.jobs[id]? = some job → job.path = path →
    job.stage = .placing n → c.disk.content? (temporary path) = some job.content
  done : ∀ (id : Nat) (job : Job), c.jobs[id]? = some job → job.path = path → job.stage.isDone →
    c.disk.content? path = some job.content ∨ lost id job.content

variable {lost : Nat → String → Prop}

/-- A step of a write that spares a path, or is of this path, leaves the files there. -/
theorem Tends.advance (h : c.Tends lost path) (hc : c.IsConfined) (hj : c.jobs[id]? = some job)
    (hf : job.stage.inFlight) (hpath : c.root.IsWithin path) (hspares : job.path.Spares path) :
    (c.advance id).Tends lost path := by
  obtain ⟨stage, d', hturns, hstroke⟩ := exists_stroke_advance hj hf
  have hstands := hc.balanced.stands_of_inFlight hj hf
  obtain ⟨dir, name, hjoin, hparts⟩ := (hc.within job (List.mem_of_getElem? hj)).exists_concat
  have hplain : ∀ n ∈ dir ++ [name], IsPlain n := fun n hn => (hparts n hn).isPlain
  have hfile := fun n => hc.placing id job n hj
  constructor
  · intro other job' n hj' hp' hstage
    rcases (getElem?_modify_jobs hj hturns.jobs).1 hj' with ⟨hne, hj'⟩ | ⟨-, rfl⟩
    · have hstands' := hc.balanced.stands_of_inFlight hj' (by rw [hstage]; rfl)
      refine hc.content?_advance hj hf hpath.temporary hspares.artifact.symm (fun heq => hne ?_)
        (h.filled other job' n hj' hp' hstage)
      have hsame := hpath.eq_of_temporary_eq (hc.within job (List.mem_of_getElem? hj)) heq
      exact hc.balanced.eq_of_stands hj hj' (hp'.trans hsame) hstands hstands'
    · rw [hturns.disk, ← hp']
      exact hstroke.content?_temporary hc.free hjoin hplain hfile n hstage
  · intro other job' hj' hp' hdone
    rcases (getElem?_modify_jobs hj hturns.jobs).1 hj' with ⟨hne, hj'⟩ | ⟨-, rfl⟩
    · refine (h.done other job' hj' hp' hdone).imp_left
        (hc.content?_advance hj hf hpath (fun heq => hne ?_) hspares.temporary.symm)
      exact hc.balanced.eq_of_stands hj hj' (hp'.trans heq) hstands (by simp [Job.stands, hdone])
    · refine Or.inl ?_
      have hfull : ∀ n, job.stage = .placing n →
          c.disk.content? (temporary job.path) = some job.content := by
        intro n hn
        rw [show job.path = path from hp']
        exact h.filled id job n hj hp' hn
      rw [hturns.disk, ← hp']
      exact hstroke.content?_of_done hc.free hjoin hplain hfull hdone

/-- As long as each write that takes a step spares a path, its files are there. -/
theorem Tends.operation (h : c.Tends lost path) (hc : c.IsConfined) (hop : c.Operation c')
    (hpath : c.root.IsWithin path)
    (hspares : ∀ (id : Nat) (job : Job), c.jobs[id]? = some job → job.stage.inFlight →
      job.path.Spares path) : c'.Tends lost path := by
  have hleft : c'.disk = c.disk → (∀ (id : Nat) (job' : Job), c'.jobs[id]? = some job' →
      (∃ job, c.jobs[id]? = some job ∧ job'.path = job.path ∧ job'.content = job.content ∧
        job'.stage = job.stage) ∨
      (∀ n, job'.stage ≠ .placing n) ∧ job'.stage.isDone = false) → c'.Tends lost path := by
    intro hdisk hjobs
    constructor
    · intro id job' n hj' hp' hstage'
      rcases hjobs id job' hj' with ⟨job, hj, hp, hcontent, hstage⟩ | ⟨hnot, -⟩
      · rw [hdisk, hcontent]
        exact h.filled id job n hj (hp.symm.trans hp') (hstage.symm.trans hstage')
      · exact absurd hstage' (hnot n)
    · intro id job' hj' hp' hdone'
      rcases hjobs id job' hj' with ⟨job, hj, hp, hcontent, hstage⟩ | ⟨-, hnot⟩
      · rw [hdisk, hcontent]
        exact h.done id job hj (hp.symm.trans hp') (by rwa [← hstage])
      · rw [hnot] at hdone'
        cases hdone'
  cases hop.effect with
  | still => exact h
  | opened name path content =>
    refine hleft rfl fun id job' hj' => ?_
    rcases getElem?_jobs_open_.1 hj' with hj | ⟨-, rfl⟩
    · exact Or.inl ⟨job', hj, rfl, rfl, rfl⟩
    · exact Or.inr ⟨by simp, rfl⟩
  | advanced id job there inFlight =>
    exact h.advance hc there inFlight hpath (hspares id job there inFlight)
  | marked _ id mark jobs disk path stage =>
    refine hleft disk fun other job' hj' => ?_
    obtain ⟨job, hj, hmark⟩ := exists_of_modify jobs hj'
    obtain ⟨later, hlater, hkept⟩ := hop.books.exists_later hj
    cases hj'.symm.trans hlater
    rcases hmark with rfl | rfl
    · exact Or.inl ⟨job', hj, rfl, rfl, rfl⟩
    · rcases stage job with hsame | hcancelled
      · exact Or.inl ⟨job, hj, hkept.path, hkept.content, hsame⟩
      · exact Or.inr (by simp [hcancelled, Stage.isDone])

end Cache
end SchemaArtifacts
