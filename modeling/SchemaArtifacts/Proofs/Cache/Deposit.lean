import SchemaArtifacts.Proofs.Cache.Aftermath

/-!
# Where a write puts its text

On a disk with links a path may lead anywhere, and a write follows what it finds: it opens its
temporary file through a link, but gives the artifact's name to the link itself. So the text is in the
place of the artifact if no link stands at the temporary file. Other links do no harm. The artifact and
its temporary file lie in the same directory, wherever their paths lead, and a link in the place of the
artifact gives way to it.

## Main definitions

* `Disk.IsUnlinked` — no link stands at the temporary file of a path
* `Disk.HasDeposited` — a disk has the artifact of a path, and what another disk has
* `Job.IsOnCourse` — a write has not done anything but fill its temporary file

## Main results

* `Disk.hasDeposited_of_placed` — the temporary file becomes the artifact
* `Job.Stroke.isOnCourse`, `Job.Stroke.hasDeposited` — a step of a write, and the one that ends it well
* `Cache.hasDeposited_run` — a write that has ended well
* `Cache.hasDeposited_storeWithin` — what a store of a text leaves
-/

namespace SchemaArtifacts

open Cache Disk

namespace Disk

variable {d d' : Disk} {aim : Aim} {root path : AbsolutePath} {top place : List String}
  {name content : String}

/-- The temporary file of an artifact lies in another place. -/
theorem ne_temporary (top : List String) (name : String) :
    top ++ [name] ≠ top ++ [name ++ temporarySuffix] := by
  intro heq
  have hname : name = name ++ temporarySuffix :=
    List.singleton_inj.1 (List.append_cancel_left heq)
  have hlength := congrArg (fun text : String => text.toList.length) hname
  simp [temporarySuffix] at hlength

/-- No link stands at the temporary file of a path, wherever the directory of the path leads, now or
when there are more directories. -/
def IsUnlinked (d : Disk) (path : AbsolutePath) : Prop :=
  ∀ d' top, Keeps d d' → RootAt d' path.parent top →
    ∀ target, d.get? (top ++ [path.name ++ temporarySuffix]) ≠ some (.link target)

/-- Whether there can be a link at the temporary file of a path is told by the entries of the table. -/
theorem isUnlinked_of_entries (h : ∀ entry ∈ d.entries, (∃ target, entry.2 = .link target) →
    entry.1.getLastD "" ≠ path.name ++ temporarySuffix) : IsUnlinked d path := by
  intro d' top _ _ target hlink
  rw [Disk.get?, if_neg (by simp)] at hlink
  exact h _ (mem_of_find? hlink) ⟨target, rfl⟩ (by simp)

/-- A disk has the artifact of a path in the directory that the path led to just before, and no temporary
file of it; anywhere else it has what another disk has, or more directories. Unless a link has given way
to the artifact, the artifact is found by its path. -/
structure HasDeposited (d : Disk) (path : AbsolutePath) (content : String) (top : List String)
    (d' : Disk) : Prop where
  directory : ∃ before, Keeps d before ∧ RootAt before path.parent top ∧
    ∀ place, place ≠ top ++ [path.name] → place ≠ top ++ [path.name ++ temporarySuffix] →
      d'.get? place = before.get? place
  file : d'.get? (top ++ [path.name]) = some (.file content)
  temporary : d'.get? (top ++ [path.name ++ temporarySuffix]) = none
  other : ∀ place, place ≠ top ++ [path.name] → place ≠ top ++ [path.name ++ temporarySuffix] →
    Ahead d d' place
  found : (∀ target, d.get? (top ++ [path.name]) ≠ some (.link target)) →
    RootAt d' path.parent top ∧ d'.content? path = some content

/-- The temporary file has become the artifact. -/
theorem hasDeposited_of_placed {d₀ : Disk} (hkeeps : Keeps d₀ d) (hr : RootAt d path.parent top)
    (hpath : path = path.parent.join [path.name]) (hname : IsName path.name) (hshort : IsShort path)
    (hfree : d.get? (top ++ [path.name]) ≠ some .directory)
    (hfull : d.get? (top ++ [path.name ++ temporarySuffix]) = some (.file content))
    (hother : ∀ place, Ahead d₀ d place ∨ place = top ++ [path.name ++ temporarySuffix]) :
    HasDeposited d₀ path content top ((d.erase (top ++ [path.name ++ temporarySuffix])).set
      (top ++ [path.name]) (.file content)) := by
  have hne := ne_temporary top path.name
  have hsame : ∀ place, place ≠ top ++ [path.name] →
      place ≠ top ++ [path.name ++ temporarySuffix] →
      ((d.erase (top ++ [path.name ++ temporarySuffix])).set (top ++ [path.name])
        (.file content)).get? place = d.get? place :=
    fun place hplace hplace' => by rw [get?_set_ne hplace, get?_erase_ne hplace']
  have hfile := get?_set_self (d := d.erase (top ++ [path.name ++ temporarySuffix]))
    (e := .file content) (p := top ++ [path.name]) (by simp)
  refine ⟨⟨d, hkeeps, hr, hsame⟩, hfile, ?_, fun place hplace hplace' => ?_, fun hlink => ?_⟩
  · rw [get?_set_ne hne.symm, get?_erase_self (by simp)]
  · exact ((hother place).resolve_right hplace').trans (Or.inl (hsame place hplace hplace'))
  · have herased : Keeps d (d.erase (top ++ [path.name ++ temporarySuffix])) :=
      keeps_erase (fun _ => by simp [hfull]) (by simp)
    have hset : Keeps d _ := herased.trans (keeps_set (by rwa [get?_erase_ne hne])
      (by rw [get?_erase_ne hne]; exact fun target h => hlink target (hkeeps.noLink _ _ h)) content)
    have hr' := hr.keeps hset
    have hlocate : Disk.locate _ .behind (path.parent.join [path.name]) = .ok (top ++ [path.name]) :=
      hr'.locate_concat hname (hpath ▸ hshort) (by simp [hfile])
    rw [← hpath] at hlocate
    exact ⟨hr', content?_eq_some_iff.2 ⟨_, hlocate, hfile⟩⟩

end Disk

namespace Job

variable {job : Job} {d d' d₀ : Disk} {stage : Stage} {place : List String}

/-- Between two disks a write has done nothing but add directories and fill its temporary file, which
holds the text when it is about to become the artifact. -/
structure IsOnCourse (d₀ : Disk) (job : Job) (d : Disk) : Prop where
  keeps : Keeps d₀ d
  other : ∀ place, Ahead d₀ d place ∨
    ∃ top, RootAt d job.path.parent top ∧ place = top ++ [job.path.name ++ temporarySuffix]
  full : ∀ n, job.stage = .placing n → ∃ top, RootAt d job.path.parent top ∧
    d.get? (top ++ [job.path.name ++ temporarySuffix]) = some (.file job.content)

/-- While a write is on its course, no link stands at its temporary file if none stood there. -/
theorem IsOnCourse.not_link (h : IsOnCourse d₀ job d) (hfree : IsUnlinked d₀ job.path)
    {top : List String} (hr : RootAt d job.path.parent top) (target : String) :
    d.get? (top ++ [job.path.name ++ temporarySuffix]) ≠ some (.link target) :=
  fun hlink => hfree d top h.keeps hr target (h.keeps.noLink _ _ hlink)

/-- A step that does not end a write well keeps it on its course. -/
theorem Stroke.isOnCourse (h : job.Stroke d d' stage) (hcourse : IsOnCourse d₀ job d)
    (hfree : IsUnlinked d₀ job.path) (hnot : stage.isDone = false) :
    IsOnCourse d₀ { job with stage } d' := by
  cases h with
  | grew _ _ grows _ notPlacing =>
    have hgrows := grows.grows
    refine ⟨hcourse.keeps.trans hgrows.keeps, fun place => ?_, fun n hn => absurd hn (notPlacing n)⟩
    rcases hcourse.other place with hahead | ⟨top, hr, hplace⟩
    · exact Or.inl (hahead.trans (hgrows place))
    · exact Or.inr ⟨top, hr.keeps hgrows.keeps, hplace⟩
  | wrote place text _ located free _ full =>
    obtain ⟨top, hr, -, rfl⟩ := exists_of_locate_concat located
      (isPlain_append_temporarySuffix job.path.name)
      fun top hr target hlink => absurd hlink (hcourse.not_link hfree hr target)
    have hkeeps := keeps_set free (hcourse.not_link hfree hr) text
    have hr' := hr.keeps hkeeps
    refine ⟨hcourse.keeps.trans hkeeps, fun other => ?_, fun n hn => ⟨top, hr', ?_⟩⟩
    · by_cases hother : other = top ++ [job.path.name ++ temporarySuffix]
      · exact Or.inr ⟨top, hr', hother⟩
      · refine (hcourse.other other).imp (fun hahead => ?_) fun ⟨top', htop', hplace⟩ => ?_
        · exact hahead.trans (Or.inl (get?_set_ne hother))
        · exact ⟨top', htop'.keeps hkeeps, hplace⟩
    · rw [get?_set_self (by simp), full n hn]
  | placed => cases hnot

/-- The step that ends a write well puts its text in the place of the artifact. -/
theorem Stroke.hasDeposited (h : job.Stroke d d' stage) (hcourse : IsOnCourse d₀ job d)
    (hpath : job.path = job.path.parent.join [job.path.name]) (hplain : IsPlain job.path.name)
    (hdone : stage.isDone) : ∃ top, HasDeposited d₀ job.path job.content top d' := by
  cases h with
  | grew _ _ _ notDone => rw [hdone] at notDone; cases notDone
  | wrote _ _ _ _ _ notDone => rw [hdone] at notDone; cases notDone
  | placed n old new e ready source target entry free =>
    obtain ⟨top, hr, -, rfl⟩ := exists_of_locate_concat source
      (isPlain_append_temporarySuffix job.path.name) fun _ _ _ _ => rfl
    have htarget := target
    rw [hpath] at htarget
    obtain ⟨top', hr', hname, rfl⟩ :=
      exists_of_locate_concat htarget hplain fun _ _ _ _ => rfl
    obtain rfl : top = top' := (hr.unique hr').symm
    obtain ⟨top', hr', hfull⟩ := hcourse.full n ready
    obtain rfl : top = top' := (hr.unique hr').symm
    obtain rfl : e = .file job.content := Option.some.inj (entry.symm.trans hfull)
    refine ⟨top, hasDeposited_of_placed hcourse.keeps hr hpath hname (isShort_of_locate target) free
      hfull fun place => (hcourse.other place).imp_right ?_⟩
    rintro ⟨top', hr', rfl⟩
    rw [hr.unique hr']

end Job

/-- A path that ends in a name. -/
theorem AbsolutePath.IsWithin.eq_join_name {root path : AbsolutePath} (h : root.IsWithin path) :
    path = path.parent.join [path.name] ∧ IsPlain path.name := by
  obtain ⟨dir, name, rfl, hparts⟩ := h.exists_concat
  have hname : (root.join (dir ++ [name])).name = name := by
    simp [AbsolutePath.name, AbsolutePath.join, ← List.append_assoc]
  rw [hname]
  refine ⟨?_, (hparts name (by simp)).isPlain⟩
  simp [AbsolutePath.parent, AbsolutePath.join, ← List.append_assoc]

namespace Cache

variable {c : Cache} {id : Nat} {job : Job} {d₀ : Disk}

/-- A write that has ended well, whatever it came to on the way, has put its text in the place of the
artifact. -/
theorem hasDeposited_run (hj : c.jobs[id]? = some job)
    (hpath : job.path = job.path.parent.join [job.path.name]) (hplain : IsPlain job.path.name)
    (hcourse : job.IsOnCourse d₀ c.disk) (hfree : IsUnlinked d₀ job.path)
    (hopen : job.stage.isDone = false) (steps : Nat) {job' : Job}
    (hj' : (c.run id steps).jobs[id]? = some job') (hdone : job'.stage.isDone) :
    ∃ top, HasDeposited d₀ job.path job.content top (c.run id steps).disk := by
  -- The write is on its course up to the step that ends it well. What comes behind that step
  -- changes nothing.
  induction steps generalizing c job with
  | zero =>
    cases hj.symm.trans hj'
    rw [hopen] at hdone
    cases hdone
  | succ steps ih =>
    cases hf : job.stage.inFlight with
    | false =>
      rw [run_of_ended hj hf] at hj'
      cases hj.symm.trans hj'
      rw [hopen] at hdone
      cases hdone
    | true =>
      rw [run_of_inFlight hj hf] at hj' ⊢
      obtain ⟨stage, d, hturns, hstroke⟩ := exists_stroke_advance hj hf
      have hnext := hturns.getElem? hj
      have hdisk : (c.advance id).disk = d := hturns.disk
      rw [← hdisk] at hstroke
      cases hstage : stage.isDone with
      | false =>
        have hcourse' := hstroke.isOnCourse hcourse hfree hstage
        obtain ⟨top, hdeposited⟩ := ih hnext hpath hplain hcourse' hfree hstage hj'
        exact ⟨top, hdeposited⟩
      | true =>
        obtain ⟨top, hdeposited⟩ := hstroke.hasDeposited hcourse hpath hplain hstage
        rw [run_of_ended hnext (inFlight_eq_false_of_isDone hstage)]
        exact ⟨top, hdeposited⟩

/-- Taking note of the end of a write does not change what is waited for. -/
theorem outcome_settle (c : Cache) (id : Nat) : (c.settle id).outcome id = c.outcome id := by
  cases hj : c.jobs[id]? with
  | none => simp [settle, hj]
  | some job =>
    cases hsettled : job.settled with
    | true => rw [settle_of_settled hj hsettled]
    | false =>
      cases hstage : job.stage with
      | ended result => rw [outcome_of_ended hj hsettled hstage, outcome_of_stage hj hstage]
      | _ => rw [settle_of_inFlight hj (by rw [hstage]; rfl)]

/-- A text that is stored at a path that was not written before is in the place of the artifact,
whatever the disk and what befalls the write, unless a link stood at its temporary file. -/
theorem hasDeposited_storeWithin (hbalanced : c.Balanced) (hquiet : c.Quiescent) {a : Address}
    {path p : AbsolutePath} {content : String} {steps : Nat} {c' : Cache} (hforeign : a.isLocal = false)
    (hpath : c.locate a.url = .ok path) (hnew : path ∉ c.written) (hfree : IsUnlinked c.disk path)
    (hrun : (storeWithin steps a content).run c = (.ok p, c')) :
    ∃ top, HasDeposited c.disk path content top c'.disk := by
  cases hpending : c.pendingJob? path with
  | some id =>
    exact absurd (run_storeWithin_of_pendingJob? hbalanced hquiet hforeign hpath hpending steps
      content).2 hnew
  | none =>
    rw [run_storeWithin_of_none hforeign hpath hpending] at hrun
    obtain ⟨houtcome, rfl⟩ := Prod.mk.inj hrun
    rw [outcome_settle] at houtcome
    obtain ⟨job, hj, -, hdone⟩ := exists_of_outcome houtcome
    have hbegun : (c.open_ path content).jobs[c.jobs.length]? = some { path, content } :=
      getElem?_jobs_open_.2 (Or.inr ⟨rfl, rfl⟩)
    obtain ⟨hjoin, hplain⟩ := (Name.isWithin_of_locate hpath).eq_join_name
    have hcourse : Job.IsOnCourse c.disk { path, content } (c.open_ path content).disk :=
      ⟨.refl _, fun _ => Or.inl (Or.inl rfl), by simp⟩
    rw [disk_settle]
    exact hasDeposited_run hbegun hjoin hplain hcourse hfree rfl steps hj hdone

end Cache

end SchemaArtifacts
