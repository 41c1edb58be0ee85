import SchemaArtifacts.Proofs.Cache.Content
import SchemaArtifacts.Proofs.Disk.Tree
import SchemaArtifacts.Proofs.Name.Containment
import SchemaArtifacts.Proofs.Session.Report

/-!
# A cache stays below its root

Whoever uses a cache, under whatever names, its writes and its questions to the disk are about paths
within the root. Where there are no links below the root, such a path leads to a place below the
directory of the root, and nothing else is changed on the disk, except that directories on the way to
the root are made if they are missing.

## Main definitions

* `Disk.ChangesBelow` — a disk differs from another only below a root and on the way to it
* `Cache.Effect` — what an operation of a cache comes to
* `Cache.IsConfined` — the writes of a cache stay below its root

## Main results

* `Job.Stroke.changesBelow` — what a step of a write changes
* `Cache.IsConfined.operation` — an operation keeps a cache confined, and changes the disk only there
* `Session.within_root` — no name leads a cache out of its root
-/

namespace SchemaArtifacts

open Cache Disk SchemaArtifacts.Path

namespace Disk

variable {d d' d'' : Disk} {root path : AbsolutePath} {place : List String}

/-- A disk differs from another only below the directory of a root, and by directories on the way to
the root. -/
def ChangesBelow (root : AbsolutePath) (d d' : Disk) : Prop :=
  ∀ place, d'.get? place = d.get? place ∨
    (∃ top below, RootAt d' root top ∧ below ≠ [] ∧ place = top ++ below) ∨
    d.get? place = none ∧ d'.get? place = some .directory ∧
      ∃ q : AbsolutePath, q.IsAbove root ∧ d'.locate .itself q = .ok place

theorem ChangesBelow.refl (root : AbsolutePath) (d : Disk) : ChangesBelow root d d :=
  fun _ => Or.inl rfl

theorem ChangesBelow.trans (h : ChangesBelow root d d') (h' : ChangesBelow root d' d'')
    (hk : Keeps d' d'') : ChangesBelow root d d'' := by
  intro place
  rcases h' place with heq' | hbelow | ⟨hnone', hdirectory, habove⟩
  · rcases h place with heq | ⟨top, below, hr, hne, hplace⟩ | ⟨hnone, hdirectory, q, hq, hlocate⟩
    · exact Or.inl (heq'.trans heq)
    · exact Or.inr (Or.inl ⟨top, below, hr.keeps hk, hne, hplace⟩)
    · exact Or.inr (Or.inr ⟨hnone, heq'.trans hdirectory, q, hq, hk.locate hlocate⟩)
  · exact Or.inr (Or.inl hbelow)
  · rcases h place with heq | ⟨top, below, hr, hne, hplace⟩ | ⟨-, hmade, -⟩
    · exact Or.inr (Or.inr ⟨heq.symm.trans hnone', hdirectory, habove⟩)
    · exact Or.inr (Or.inl ⟨top, below, hr.keeps hk, hne, hplace⟩)
    · rw [hmade] at hnone'
      cases hnone'

/-- A path within a root without links below leads to a place below the directory of the root. -/
theorem IsFreeBelow.exists_below (h : IsFreeBelow d root) (hpath : root.IsWithin path) {aim : Aim}
    (hlocate : d.locate aim path = .ok place) :
    ∃ top below, RootAt d root top ∧ below ≠ [] ∧ place = top ++ below := by
  obtain ⟨parts, hne, hparts, rfl⟩ := hpath
  obtain ⟨top, hr, hplace, -⟩ := h.exists_place hne (fun n hn => (hparts n hn).isPlain) hlocate
  exact ⟨top, parts, hr, hne, hplace⟩

end Disk

/-- Paths within a root that have one temporary file are one. -/
theorem AbsolutePath.IsWithin.eq_of_temporary_eq {root p q : AbsolutePath} (h : root.IsWithin p)
    (h' : root.IsWithin q) (heq : Cache.temporary p = Cache.temporary q) : p = q := by
  obtain ⟨dir, name, rfl, -⟩ := h.exists_concat
  obtain ⟨dir', name', rfl, -⟩ := h'.exists_concat
  rw [temporary_join, temporary_join] at heq
  have hparts := List.append_cancel_left (congrArg AbsolutePath.parts heq)
  obtain ⟨rfl, hlast⟩ := List.append_inj' hparts rfl
  have hname := congrArg String.toList (List.singleton_inj.1 hlast)
  rw [String.toList_append, String.toList_append] at hname
  rw [String.toList_injective (List.append_cancel_right hname)]

namespace Job

variable {root other : AbsolutePath} {job : Job} {d d' : Disk} {stage : Stage} {x : String}

/-- A step of a write to a path within a root keeps directories and links and changes the disk only
below the root and on the way to it. -/
theorem Stroke.changesBelow (h : job.Stroke d d' stage) (hfree : IsFreeBelow d root)
    (hpath : root.IsWithin job.path)
    (hfile : ∀ n, job.stage = .placing n → ∃ x, d.content? (temporary job.path) = some x) :
    Keeps d d' ∧ ChangesBelow root d d' := by
  obtain ⟨dir, name, hjoin, hparts⟩ := hpath.exists_concat
  have hplain : ∀ n ∈ dir ++ [name], IsPlain n := fun n hn => (hparts n hn).isPlain
  obtain ⟨hkeeps, hplaces⟩ := h.toward hfree hjoin hplain hfile
  refine ⟨hkeeps, fun place => ?_⟩
  by_cases hown : IsOwn d root dir name place
  · obtain ⟨top, hr, hplace | hplace⟩ := hown
    · exact Or.inr (Or.inl ⟨top, _, hr.keeps hkeeps, by simp, hplace⟩)
    · exact Or.inr (Or.inl ⟨top, _, hr.keeps hkeeps, by simp, hplace⟩)
  · refine (hplaces place hown).imp_right ?_
    rintro ⟨hnone, hdirectory, q, hq, hlocate⟩
    have hparent : job.path.parent = root.join dir := by
      simp [hjoin, AbsolutePath.parent, AbsolutePath.join, ← List.append_assoc]
    rw [hparent] at hq
    -- A new directory lies on the way to the root, or below it on the way to the artifact.
    rcases hq.of_join with hq | ⟨above, hne, habove, rfl⟩
    · exact Or.inr ⟨hnone, hdirectory, q, hq, hlocate⟩
    · obtain ⟨top, hr, hplace, -⟩ := (hfree.keeps hkeeps).exists_place hne
        (fun n hn => hplain n (List.mem_append_left _ (habove.subset hn))) hlocate
      exact Or.inl ⟨top, above, hr, hne, hplace⟩

/-- A step of a write leaves a file at every path within the root where one is, except that its
temporary file may go away. -/
theorem Stroke.exists_content_of_ne (h : job.Stroke d d' stage) (hfree : IsFreeBelow d root)
    (hpath : root.IsWithin job.path)
    (hfile : ∀ n, job.stage = .placing n → ∃ x, d.content? (temporary job.path) = some x)
    (hother : root.IsWithin other) (hne : other ≠ temporary job.path)
    (hx : d.content? other = some x) : ∃ y, d'.content? other = some y := by
  obtain ⟨hkeeps, -⟩ := h.changesBelow hfree hpath hfile
  obtain ⟨place, hlocate, hentry⟩ := content?_eq_some_iff.1 hx
  suffices hsuffices : ∃ y, d'.get? place = some (.file y) by
    obtain ⟨y, hy⟩ := hsuffices
    exact ⟨y, hkeeps.content? hlocate hy⟩
  have htemporary := hpath.temporary
  obtain ⟨names, hnames, hparts, rfl⟩ := hother
  obtain ⟨top, hr, rfl, hother⟩ :=
    hfree.exists_place hnames (fun n hn => (hparts n hn).isPlain) hlocate
  have hapart : ∀ {aim : Aim} {temp : List String},
      d.locate aim (temporary job.path) = .ok temp → temp ≠ top ++ names := by
    rintro aim temp htemp rfl
    obtain ⟨names', hnames', hparts', heq⟩ := htemporary
    rw [heq] at htemp hne
    obtain ⟨top', hr', hplace, -⟩ :=
      hfree.exists_place hnames' (fun n hn => (hparts' n hn).isPlain) htemp
    rw [hr.unique hr'] at hplace
    exact hne (by rw [List.append_cancel_left hplace])
  cases h with
  | grew _ _ grows => exact ⟨x, grows.grows.get?_of_some hentry⟩
  | wrote temp text _ located => exact ⟨x, by rw [get?_set_ne (hapart located).symm, hentry]⟩
  | placed n old new e ready source target entry =>
    by_cases hnew : top ++ names = new
    · obtain ⟨y, hcontent⟩ := hfile n ready
      obtain ⟨temp, htemp, hy⟩ := content?_eq_some_iff.1 hcontent
      obtain ⟨names', hnames', hparts', heq⟩ := htemporary
      rw [heq] at source htemp
      obtain ⟨-, -, -, hsource⟩ :=
        hfree.exists_place hnames' (fun n hn => (hparts' n hn).isPlain) source
      cases (hsource .behind).symm.trans htemp
      cases entry.symm.trans hy
      exact ⟨y, by rw [hnew, get?_set_self (by simp [← hnew, hnames])]⟩
    · exact ⟨x, by rw [get?_set_ne hnew, get?_erase_ne (hapart source).symm, hentry]⟩

end Job

namespace Cache

variable {c c' : Cache} {id : Nat} {job job' : Job}

/-- What an operation of a cache comes to: nothing, a new write at the path of a name, a step of a
write in flight, or a mark on a write that leaves the disk alone. -/
inductive Effect (c : Cache) : (c' : Cache) → Prop where
  | still : Effect c c
  | opened (name : String) (path : AbsolutePath) (content : String) (located : c.locate name = .ok path)
      (free : c.pendingJob? path = none) : Effect c (c.open_ path content)
  | advanced (id : Nat) (job : Job) (there : c.jobs[id]? = some job) (inFlight : job.stage.inFlight) :
      Effect c (c.advance id)
  | marked (c' : Cache) (id : Nat) (mark : Job → Job) (jobs : c'.jobs = c.jobs.modify id mark)
      (disk : c'.disk = c.disk) (path : ∀ job, (mark job).path = job.path)
      (stage : ∀ job, (mark job).stage = job.stage ∨
        (mark job).stage = .ended (.error .cancelled)) : Effect c c'

theorem Operation.effect (h : c.Operation c') : c.Effect c' := by
  cases h with
  | none => exact .still
  | request a content =>
    rw [run_request]
    split
    · exact .still
    · split
      · exact .still
      · split
        · exact .still
        · exact .opened a.url _ content ‹_› ‹_›
  | advance id =>
    cases hj : c.jobs[id]? with
    | none =>
      have hsame : c.advance id = c := by simp only [Cache.advance, hj]
      rw [hsame]
      exact .still
    | some job =>
      cases hf : job.stage.inFlight with
      | true => exact .advanced id job hj hf
      | false =>
        rw [advance_of_ended hj hf]
        exact .still
  | settle id =>
    unfold Cache.settle
    split
    · exact .still
    · split
      · exact .still
      · split
        · exact .still
        · dsimp only
          split <;> exact .marked _ id _ rfl rfl (fun _ => rfl) fun _ => Or.inl rfl
  | cancelWrite id =>
    unfold Cache.cancelWrite
    split
    · exact .still
    · split
      · exact .marked _ id _ rfl rfl (fun _ => rfl) fun _ => Or.inr rfl
      · exact .still

/-- The writes after one of them was marked. -/
theorem exists_of_modify {mark : Job → Job} {other : Nat} (jobs : c'.jobs = c.jobs.modify id mark)
    (hj' : c'.jobs[other]? = some job') :
    ∃ job, c.jobs[other]? = some job ∧ (job' = job ∨ job' = mark job) := by
  rw [jobs, List.getElem?_modify] at hj'
  cases hj : c.jobs[other]? with
  | none =>
    rw [hj] at hj'
    cases hj'
  | some job =>
    rw [hj] at hj'
    refine ⟨job, rfl, ?_⟩
    by_cases hid : id = other
    · exact Or.inr (by simpa [hid] using hj'.symm)
    · exact Or.inl (by simpa [hid] using hj'.symm)

/-- The writes of a cache are of paths within its root. -/
def IsWithin (c : Cache) : Prop := ∀ job ∈ c.jobs, c.root.IsWithin job.path

theorem IsWithin.operation (h : c.IsWithin) (hop : c.Operation c') : c'.IsWithin := by
  intro job' hjob'
  have hmarked : ∀ {id : Nat} {mark : Job → Job}, c'.jobs = c.jobs.modify id mark →
      (∀ job, (mark job).path = job.path) → c.root.IsWithin job'.path := by
    intro id mark jobs hpath
    obtain ⟨other, hj'⟩ := List.getElem?_of_mem hjob'
    obtain ⟨job, hj, rfl | rfl⟩ := exists_of_modify jobs hj'
    · exact h job' (List.mem_of_getElem? hj)
    · rw [hpath]
      exact h job (List.mem_of_getElem? hj)
  rw [hop.sameWorld.root]
  cases hop.effect with
  | still => exact h job' hjob'
  | opened name path content located =>
    rcases List.mem_append.1 hjob' with hjob | hjob
    · exact h job' hjob
    · rw [List.mem_singleton.1 hjob]
      exact Name.isWithin_of_locate located
  | advanced id job there inFlight =>
    exact hmarked (turns_advance there inFlight).jobs fun _ => rfl
  | marked _ id mark jobs _ path => exact hmarked jobs path

/-- The writes of a cache stay below its root, where there are no links. A write that is about to
place its artifact has its temporary file. -/
structure IsConfined (c : Cache) : Prop where
  balanced : c.Balanced
  free : IsFreeBelow c.disk c.root
  within : c.IsWithin
  placing : ∀ (id : Nat) (job : Job) (n : Nat), c.jobs[id]? = some job → job.stage = .placing n →
    ∃ x, c.disk.content? (temporary job.path) = some x

theorem IsFresh.isConfined (h : c.IsFresh) (hfree : IsFreeBelow c.disk c.root) : c.IsConfined := by
  refine ⟨h.balanced, hfree, ?_, ?_⟩ <;> simp [IsWithin, h.jobs]

/-- A step of a write in flight keeps a cache confined. -/
theorem IsConfined.advance (h : c.IsConfined) (hj : c.jobs[id]? = some job)
    (hf : job.stage.inFlight) : (c.advance id).IsConfined ∧ Keeps c.disk (c.advance id).disk ∧
      ChangesBelow c.root c.disk (c.advance id).disk := by
  have hop : c.Operation (c.advance id) := .advance id
  obtain ⟨stage, d', hturns, hstroke⟩ := exists_stroke_advance hj hf
  have hpath := h.within job (List.mem_of_getElem? hj)
  have hfile := fun n => h.placing id job n hj
  have hdisk : (c.advance id).disk = d' := hturns.disk
  obtain ⟨hkeeps, hchanges⟩ := hstroke.changesBelow h.free hpath hfile
  rw [← hdisk] at hkeeps hchanges
  refine ⟨⟨hop.books.balanced h.balanced, ?_, h.within.operation hop, ?_⟩, hkeeps, hchanges⟩
  · rw [hop.sameWorld.root]
    exact h.free.keeps hkeeps
  · intro other job' n hj' hstage
    rw [hdisk]
    rcases (getElem?_modify_jobs hj hturns.jobs).1 hj' with ⟨hne, hj'⟩ | ⟨-, rfl⟩
    · -- Two writes in flight have different paths, and so have their temporary files.
      obtain ⟨x, hx⟩ := h.placing other job' n hj' hstage
      have hpath' := h.within job' (List.mem_of_getElem? hj')
      refine hstroke.exists_content_of_ne h.free hpath hfile hpath'.temporary (fun heq => ?_) hx
      have hstands' := h.balanced.stands_of_inFlight hj' (by rw [hstage]; rfl)
      exact hne (h.balanced.eq_of_stands hj hj' (hpath'.eq_of_temporary_eq hpath heq)
        (h.balanced.stands_of_inFlight hj hf) hstands')
    · obtain ⟨dir, name, hjoin, hparts⟩ := hpath.exists_concat
      exact ⟨_, hstroke.content?_temporary h.free hjoin (fun n hn => (hparts n hn).isPlain) hfile n
        hstage⟩

/-- An operation keeps a cache confined, and changes the disk only below the root and on the way to
it. -/
theorem IsConfined.operation (h : c.IsConfined) (hop : c.Operation c') :
    c'.IsConfined ∧ Keeps c.disk c'.disk ∧ ChangesBelow c.root c.disk c'.disk := by
  have hleft : c'.disk = c.disk → (∀ (id : Nat) (job' : Job) (n : Nat), c'.jobs[id]? = some job' →
      job'.stage = .placing n →
      ∃ job, c.jobs[id]? = some job ∧ job'.path = job.path ∧ job.stage = .placing n) →
      c'.IsConfined ∧ Keeps c.disk c'.disk ∧ ChangesBelow c.root c.disk c'.disk := by
    intro hdisk hplacing
    refine ⟨⟨hop.books.balanced h.balanced, ?_, h.within.operation hop, ?_⟩, ?_, ?_⟩
    · rw [hdisk, hop.sameWorld.root]
      exact h.free
    · intro id job' n hj' hstage
      obtain ⟨job, hj, hpath, hstage'⟩ := hplacing id job' n hj' hstage
      rw [hdisk, hpath]
      exact h.placing id job n hj hstage'
    · rw [hdisk]
      exact .refl _
    · rw [hdisk]
      exact .refl _ _
  cases hop.effect with
  | still => exact hleft rfl fun id job' n hj' hstage => ⟨job', hj', rfl, hstage⟩
  | opened name path content =>
    refine hleft rfl fun id job' n hj' hstage => ?_
    rcases getElem?_jobs_open_.1 hj' with hj | ⟨-, rfl⟩
    · exact ⟨job', hj, rfl, hstage⟩
    · cases hstage
  | advanced id job there inFlight => exact h.advance there inFlight
  | marked _ id mark jobs disk path stage =>
    refine hleft disk fun other job' n hj' hstage => ?_
    obtain ⟨job, hj, rfl | rfl⟩ := exists_of_modify jobs hj'
    · exact ⟨job', hj, rfl, hstage⟩
    · rcases stage job with hsame | hcancelled
      · exact ⟨job, hj, path job, hsame.symm.trans hstage⟩
      · rw [hcancelled] at hstage
        cases hstage

end Cache

/-- A delivery looks at the disk only for a path within the root. -/
theorem Delivery.isWithin_of_looking {d : Delivery} {c : Cache} {out : String} {path : AbsolutePath}
    (h : (d.step c).2.stage = .looking out path) (hbefore : ∀ out path,
      d.stage ≠ .looking out path) : c.root.IsWithin path := by
  have hawait : ∀ caller, await caller ≠ .looking out path := by
    intro caller
    unfold await
    split <;> simp
  unfold step at h
  cases hstage : d.stage with
  | ready =>
    rw [hstage] at h
    dsimp only at h
    have hreads := Exporter.reads_start c d.exporter
    rcases hrun : (Exporter.start Cache.shelf).run (c, d.exporter) with ⟨result, c', e⟩
    rw [hrun] at h hreads
    obtain rfl : c' = c := hreads
    cases result with
    | error err => cases h
    | ok answer =>
      cases answer with
      | none => cases h
      | some out' =>
        dsimp only [look] at h
        split at h
        · rename_i located
          split at h
          · cases h
          · cases h
            exact Name.isWithin_of_locate located
        · cases h
  | looking out' path' => exact absurd hstage (hbefore out' path')
  | answered out' present =>
    rw [hstage] at h
    cases present with
    | true => cases h
    | false =>
      dsimp only at h
      rcases hrun : (Exporter.contents Cache.shelf).run (c, d.exporter) with ⟨result, c', e⟩
      rw [hrun] at h
      cases result with
      | error err => cases h
      | ok content => exact absurd h (hawait _)
  | storing caller =>
    rw [hstage] at h
    exact absurd h (hawait _)
  | ended result =>
    rw [hstage] at h
    cases hstage.symm.trans h

namespace Session

variable {s : Session}

/-- No delivery looks for a path outside the root. -/
def LooksWithin (s : Session) : Prop :=
  ∀ d ∈ s.deliveries, ∀ out path, d.stage = .looking out path → s.cache.root.IsWithin path

theorem LooksWithin.play (h : s.LooksWithin) (m : Move) : (s.play m).LooksWithin := by
  intro d' hmem out path hlooks
  obtain ⟨i, hd'⟩ := List.getElem?_of_mem hmem
  have hi : i < s.deliveries.length := by
    rw [← length_deliveries_play m]
    exact (List.getElem?_eq_some_iff.1 hd').1
  obtain ⟨d'', hd'', hcases⟩ := exists_delivery_play m (List.getElem?_eq_getElem hi)
  cases hd'.symm.trans hd''
  have hbefore := h s.deliveries[i] (List.getElem_mem hi)
  rw [(operation_play s m).sameWorld.root]
  rcases hcases with heq | heq | ⟨-, heq⟩
  · exact hbefore out path (heq ▸ hlooks)
  · refine Delivery.isWithin_of_looking (heq ▸ hlooks) fun out' path' hstage => ?_
    rw [heq, Delivery.step, hstage] at hlooks
    cases hlooks
  · rw [heq] at hlooks
    unfold Delivery.abandon at hlooks
    split at hlooks
    · exact hbefore out path hlooks
    · cases hlooks

theorem isWithin_playAll (h : s.cache.IsWithin) (hlooks : s.LooksWithin) (moves : List Move) :
    (s.playAll moves).cache.IsWithin ∧ (s.playAll moves).LooksWithin := by
  induction moves generalizing s with
  | nil => exact ⟨h, hlooks⟩
  | cons m moves ih => exact ih (h.operation (operation_play s m)) (hlooks.play m)

theorem isConfined_playAll (h : s.cache.IsConfined) (moves : List Move) :
    (s.playAll moves).cache.IsConfined ∧ Keeps s.cache.disk (s.playAll moves).cache.disk ∧
      ChangesBelow s.cache.root s.cache.disk (s.playAll moves).cache.disk := by
  induction moves generalizing s with
  | nil => exact ⟨h, .refl _, .refl _ _⟩
  | cons m moves ih =>
    obtain ⟨hconfined, hkeeps, hchanges⟩ := h.operation (operation_play s m)
    obtain ⟨hconfined', hkeeps', hchanges'⟩ := ih hconfined
    rw [(operation_play s m).sameWorld.root] at hchanges'
    exact ⟨hconfined', hkeeps.trans hkeeps', hchanges.trans hchanges' hkeeps'⟩

/-- No name leads a cache out of its root. The path of a name is the root and then one component or
more, none of which is empty, a dot or two dots, or holds a slash, a backslash or the null character;
so it lies strictly below the root, as a text and read component by component. And whoever uses a
fresh cache with that root, under whatever names and in whatever order of steps: every file that is
written and every question whether an artifact is there is about such a path. Without links below the
root, such a path leads only to places below the directory of the root, and nothing else on the disk
changes, except for directories that are made because the way to the root is missing. -/
theorem within_root (root : AbsolutePath) :
    (∀ name path, Name.locate root name = .ok path →
      ∃ parts : List String, parts ≠ [] ∧ (∀ part ∈ parts, Name.IsComponent part) ∧
        path = root.join parts ∧
        path.toString =
          root.toString ++ (if root.parts = [] then "" else "/") ++ "/".intercalate parts ∧
        normal path.toString.toList = normal root.toString.toList ++ parts.map String.toList) ∧
    ∀ (s : Session) (moves : List Move), s.cache.IsFresh → s.cache.root = root →
      (∀ d ∈ s.deliveries, d.stage = .ready) →
      (∀ job ∈ (s.playAll moves).cache.jobs,
        root.IsWithin job.path ∧ root.IsWithin (temporary job.path)) ∧
      (∀ d ∈ (s.playAll moves).deliveries, ∀ out path, d.stage = .looking out path →
        root.IsWithin path) ∧
      (IsFreeBelow s.cache.disk root →
        (∀ path aim place, root.IsWithin path →
          (s.playAll moves).cache.disk.locate aim path = .ok place →
          ∃ top below, RootAt (s.playAll moves).cache.disk root top ∧ below ≠ [] ∧
            place = top ++ below) ∧
        ChangesBelow root s.cache.disk (s.playAll moves).cache.disk) := by
  constructor
  · intro name path hlocate
    obtain ⟨parts, hne, hparts, rfl⟩ := Name.isWithin_of_locate hlocate
    exact ⟨parts, hne, hparts, rfl, root.toString_join hne, root.normal_join_components hparts⟩
  · rintro s moves hfresh rfl hready
    have hroot := (sameWorld_playAll s moves).root
    have hlooks : s.LooksWithin := by
      intro d hd out path hstage
      rw [hready d hd] at hstage
      cases hstage
    have hwithin : s.cache.IsWithin := by simp [Cache.IsWithin, hfresh.jobs]
    obtain ⟨hwithin, hlooks⟩ := isWithin_playAll hwithin hlooks moves
    rw [Cache.IsWithin, hroot] at hwithin
    rw [LooksWithin, hroot] at hlooks
    refine ⟨fun job hjob => ⟨hwithin job hjob, (hwithin job hjob).temporary⟩, hlooks, fun hfree => ?_⟩
    obtain ⟨hconfined, -, hchanges⟩ := isConfined_playAll (hfresh.isConfined hfree) moves
    refine ⟨fun path aim place hpath hlocate => ?_, hchanges⟩
    have hfree' := hconfined.free
    rw [hroot] at hfree'
    exact hfree'.exists_below hpath hlocate

/-- A caller stores under a name with empty parts, below a root that goes up, beside an export of a web
page's directory. Both names have paths, and both are written below the root. -/
theorem within_root_of_empty_parts : ∃ (root : AbsolutePath) (s : Session) (moves : List Move)
    (path : AbsolutePath), root = .ofString { parts := ["w"] } "x/..//out" ∧
      Name.locate root "//urn::a:/b" = .ok path ∧
      (∃ parts : List String, parts ≠ [] ∧ (∀ part ∈ parts, Name.IsComponent part) ∧
        path = root.join parts) ∧
      (s.playAll moves).cache.jobs.length = 2 ∧ (s.playAll moves).cache.disk.exists_ path ∧
      (∀ job ∈ (s.playAll moves).cache.jobs, root.IsWithin job.path) ∧
      ChangesBelow root s.cache.disk (s.playAll moves).cache.disk := by
  let root : AbsolutePath := .ofString { parts := ["w"] } "x/..//out"
  let s : Session :=
    { cache := { root, disk := { entries := [(["w"], .directory), (["w", "x"], .directory)] } }
      callers := [{ address := .ofUrl "//urn::a:/b" (some false), content := "y" }]
      deliveries := [{ exporter :=
        { doc := some { name := .string "HTTP://e.org//schema/" }, format := .typeScript } }] }
  let moves : List Move := [.call 0, .start, .proceed 0, .proceed 0, .write 0, .write 0, .write 1,
    .write 0, .write 0, .write 0, .settle 0, .call 0, .write 1]
  have hlocate : (Name.locate root "//urn::a:/b").toOption =
      some (root.join ["urn", "a", "b"]) := by decide +kernel
  have hpath : Name.locate root "//urn::a:/b" = .ok (root.join ["urn", "a", "b"]) := by
    cases hlocated : Name.locate root "//urn::a:/b" with
    | error e => simp [hlocated, Except.toOption] at hlocate
    | ok path => simpa [hlocated, Except.toOption] using hlocate
  have hfree : IsFreeBelow s.cache.disk root :=
    isFreeBelow_of_isLinkFree (isLinkFree_of_entries (by simp [s])) root
  obtain ⟨hnames, hsessions⟩ := within_root root
  obtain ⟨parts, hne, hparts, hjoin, -, -⟩ := hnames _ _ hpath
  obtain ⟨hjobs, -, hdisk⟩ := hsessions s moves ⟨rfl, rfl, rfl, rfl⟩ rfl (by simp [s])
  exact ⟨root, s, moves, _, rfl, hpath, ⟨parts, hne, hparts, hjoin⟩, by decide +kernel,
    by decide +kernel, fun job hjob => (hjobs job hjob).1, (hdisk hfree).2⟩

end Session

end SchemaArtifacts
