import SchemaArtifacts.Cache.Basic
import SchemaArtifacts.Proofs.Cache.Stroke
import SchemaArtifacts.Proofs.Disk.Tree
import SchemaArtifacts.Proofs.Export.Artifact

/-!
# What becomes of the contents below a root

The file at a path keeps its content on every disk that keeps directories and links, if its place is
left alone. A step of a write leaves all places alone but those of its own two files; a sweep leaves
alone what is neither empty nor temporary.

## Main definitions

* `Disk.IsFreeBelow` — wherever a root leads, there are no links
* `Job.IsOwn` — the two files of a write
* `Disk.Swept` — directories, links and lasting contents are as before

## Main results

* `Disk.content?_eq_some_iff`, `Disk.Keeps.content?` — the content at a path
* `Job.Stroke.toward`, `Job.Stroke.content?_of_names_ne` — what a step of a write leaves alone
* `Job.Stroke.content?_temporary`, `Job.Stroke.content?_of_done` — what it leaves in its own files
* `Disk.swept_sweep` — what a sweep leaves alone
-/

namespace SchemaArtifacts

open Disk

namespace Disk

variable {d d' : Disk} {p root : AbsolutePath} {top place : List String} {x : String}

theorem content?_eq_some_iff : d.content? p = some x ↔
    ∃ place, d.locate .behind p = .ok place ∧ d.get? place = some (.file x) := by
  unfold content? entryAt?
  cases d.locate .behind p with
  | error cause => simp
  | ok place =>
    cases hentry : d.get? place with
    | none => simp [hentry]
    | some e => cases e <;> simp [hentry]

/-- Where there is a content, there is something. -/
theorem exists_of_content? (h : d.content? p = some x) : d.exists_ p := by
  unfold content? at h
  unfold exists_
  cases hentry : d.entryAt? p with
  | none => simp [hentry] at h
  | some e => rfl

/-- The content at a path stays, if directories and links stay and the place is left alone. -/
theorem Keeps.content? (hk : Keeps d d') (h : d.locate .behind p = .ok place)
    (hplace : d'.get? place = some (.file x)) : d'.content? p = some x :=
  content?_eq_some_iff.2 ⟨place, hk.locate h, hplace⟩

/-- Wherever a root leads, now or when there are more directories, there are no links below. -/
def IsFreeBelow (d : Disk) (root : AbsolutePath) : Prop :=
  ∀ d' top, Keeps d d' → RootAt d' root top → IsLinkFree d top

theorem IsFreeBelow.keeps (h : IsFreeBelow d root) (hk : Keeps d d') : IsFreeBelow d' root := by
  intro d'' top hk' hr below target hbelow hlink
  exact h d'' top (hk.trans hk') hr below target hbelow (hk.noLink below target hlink)

theorem IsFreeBelow.isLinkFree (h : IsFreeBelow d root) (hr : RootAt d root top) :
    IsLinkFree d top :=
  h d top (.refl d) hr

/-- A disk without any links has none below a root. -/
theorem isFreeBelow_of_isLinkFree (h : IsLinkFree d []) (root : AbsolutePath) :
    IsFreeBelow d root :=
  fun _ _ _ _ => h.of_prefix List.nil_prefix

/-- A path below a root that leads somewhere leads there by its names, whatever it is followed
for. -/
theorem IsFreeBelow.exists_place (h : IsFreeBelow d root) {names : List String} {aim : Aim}
    (hne : names ≠ []) (hplain : ∀ name ∈ names, IsPlain name)
    (hlocate : d.locate aim (root.join names) = .ok place) :
    ∃ top, RootAt d root top ∧ place = top ++ names ∧
      ∀ aim', d.locate aim' (root.join names) = .ok place := by
  obtain ⟨top, hr⟩ := exists_rootAt_of_locate hlocate hne
  have hfree := h.isLinkFree hr
  refine ⟨top, hr, place_of_locate_join hr hfree hne hplain hlocate, fun aim' => ?_⟩
  rw [locate_join hr hfree hne hplain] at hlocate ⊢
  exact hlocate

/-- The content that is found at a path below a root is that of the file in its place. -/
theorem IsFreeBelow.get?_of_content? (h : IsFreeBelow d root) {names : List String} {aim : Aim}
    (hne : names ≠ []) (hplain : ∀ name ∈ names, IsPlain name)
    (hlocate : d.locate aim (root.join names) = .ok place)
    (hx : d.content? (root.join names) = some x) : d.get? place = some (.file x) := by
  obtain ⟨top, -, -, hplace⟩ := h.exists_place hne hplain hlocate
  obtain ⟨other, hother, hfile⟩ := content?_eq_some_iff.1 hx
  cases (hplace .behind).symm.trans hother
  exact hfile

end Disk

namespace Job

variable {root : AbsolutePath} {job : Job} {d d' : Disk} {stage : Stage} {dir names : List String}
  {name x : String}

/-- The two files of a write: those that its steps do anything to. -/
def IsOwn (d : Disk) (root : AbsolutePath) (dir : List String) (name : String)
    (place : List String) : Prop :=
  ∃ top, RootAt d root top ∧
    (place = top ++ (dir ++ [name]) ∨ place = top ++ (dir ++ [name ++ temporarySuffix]))

/-- A step of a write keeps directories and links. Away from its own files it adds at most
directories, on the way to its artifact. -/
theorem Stroke.toward (h : job.Stroke d d' stage) (hfree : IsFreeBelow d root)
    (hpath : job.path = root.join (dir ++ [name])) (hplain : ∀ n ∈ dir ++ [name], IsPlain n)
    (hfile : ∀ n, job.stage = .placing n →
      ∃ x, d.content? (Cache.temporary job.path) = some x) :
    Keeps d d' ∧ ∀ place, ¬ IsOwn d root dir name place → d'.get? place = d.get? place ∨
      d.get? place = none ∧ d'.get? place = some .directory ∧
        ∃ q : AbsolutePath, q.IsAbove job.path.parent ∧ d'.locate .itself q = .ok place := by
  have htemporary : Cache.temporary job.path = root.join (dir ++ [name ++ temporarySuffix]) := by
    rw [hpath, temporary_join]
  cases h with
  | grew _ _ grows => exact ⟨grows.grows.keeps, fun place _ => grows place⟩
  | wrote temp text _ located free =>
    rw [htemporary] at located
    obtain ⟨top, hr, hplace, -⟩ :=
      hfree.exists_place (by simp) (plain_concat_temporarySuffix hplain) located
    have hlink := (follows_of_locate located).not_link (isFirm_nil d) (by simp)
    refine ⟨keeps_set free hlink text, fun place hown => Or.inl (get?_set_ne ?_)⟩
    rintro rfl
    exact hown ⟨top, hr, Or.inr hplace⟩
  | placed n old new e ready source target entry free =>
    obtain ⟨x, hcontent⟩ := hfile n ready
    rw [htemporary] at source hcontent
    rw [hpath] at target
    obtain ⟨top, hr, hold, -⟩ :=
      hfree.exists_place (by simp) (plain_concat_temporarySuffix hplain) source
    obtain ⟨top', hr', hnew, -⟩ := hfree.exists_place (by simp) hplain target
    have hfile :=
      hfree.get?_of_content? (by simp) (plain_concat_temporarySuffix hplain) source hcontent
    cases entry.symm.trans hfile
    have hne : old ≠ [] := by simp [hold]
    have herase : Keeps d (d.erase old) := by
      apply keeps_erase _ hne
      intro _
      rw [hfile]
      exact ⟨by simp, by simp⟩
    have hset : Keeps (d.erase old) ((d.erase old).set new (.file x)) := by
      apply keeps_set
      · by_cases hon : new = old
        · rw [hon, get?_erase_self hne]
          simp
        · rwa [get?_erase_ne hon]
      · intro link hlink
        refine hfree.isLinkFree hr' new link ?_ (herase.noLink new link hlink)
        rw [hnew]
        exact List.prefix_append _ _
    refine ⟨herase.trans hset, fun place hown => Or.inl ?_⟩
    rw [get?_set_ne, get?_erase_ne]
    · rintro rfl
      exact hown ⟨top, hr, Or.inr hold⟩
    · rintro rfl
      exact hown ⟨top', hr', Or.inl hnew⟩

theorem Stroke.keeps (h : job.Stroke d d' stage) (hfree : IsFreeBelow d root)
    (hpath : root.IsLasting job.path dir name)
    (hfull : ∀ n, job.stage = .placing n →
      d.content? (Cache.temporary job.path) = some job.content) : Keeps d d' :=
  (h.toward hfree hpath.path hpath.plain fun n hn => ⟨job.content, hfull n hn⟩).1

/-- A step of a write leaves the content at every other path below the root alone. -/
theorem Stroke.content?_of_names_ne (h : job.Stroke d d' stage) (hfree : IsFreeBelow d root)
    (hpath : job.path = root.join (dir ++ [name])) (hplain : ∀ n ∈ dir ++ [name], IsPlain n)
    (hfile : ∀ n, job.stage = .placing n →
      ∃ x, d.content? (Cache.temporary job.path) = some x)
    (hplain' : ∀ n ∈ names, IsPlain n) (hne : names ≠ []) (hartifact : names ≠ dir ++ [name])
    (htemporary : names ≠ dir ++ [name ++ temporarySuffix])
    (hx : d.content? (root.join names) = some x) : d'.content? (root.join names) = some x := by
  obtain ⟨hkeeps, hplaces⟩ := h.toward hfree hpath hplain hfile
  obtain ⟨place, hlocate, hentry⟩ := content?_eq_some_iff.1 hx
  obtain ⟨top, hr, rfl, -⟩ := hfree.exists_place hne hplain' hlocate
  -- The place belongs to neither file of the write, so only a directory could have come there, and
  -- a file is there already.
  have hother : ¬ IsOwn d root dir name (top ++ names) := by
    rintro ⟨top', hr', hown⟩
    rw [hr'.unique hr] at hown
    rcases hown with hown | hown
    · exact hartifact (List.append_cancel_left hown)
    · exact htemporary (List.append_cancel_left hown)
  refine hkeeps.content? hlocate ?_
  rcases hplaces _ hother with heq | ⟨hnone, -⟩
  · rw [heq, hentry]
  · rw [hentry] at hnone
    cases hnone

variable {other : AbsolutePath} {dir' : List String} {name' : String}

theorem Stroke.content?_of_ne (h : job.Stroke d d' stage) (hfree : IsFreeBelow d root)
    (hpath : root.IsLasting job.path dir name)
    (hfull : ∀ n, job.stage = .placing n →
      d.content? (Cache.temporary job.path) = some job.content)
    (hother : root.IsLasting other dir' name') (hne : other ≠ job.path)
    (hx : d.content? other = some x) : d'.content? other = some x := by
  rw [hother.path] at hx ⊢
  apply h.content?_of_names_ne hfree hpath.path hpath.plain (fun n hn => ⟨job.content, hfull n hn⟩)
    hother.plain (by simp) _ _ hx
  · exact fun heq => (hother.ne_of_ne hpath hne []).1 heq
  · exact fun heq => hother.temporary_ne [] dir name heq.symm

theorem Stroke.content?_temporary_of_ne (h : job.Stroke d d' stage) (hfree : IsFreeBelow d root)
    (hpath : root.IsLasting job.path dir name)
    (hfull : ∀ n, job.stage = .placing n →
      d.content? (Cache.temporary job.path) = some job.content)
    (hother : root.IsLasting other dir' name') (hne : other ≠ job.path)
    (hx : d.content? (Cache.temporary other) = some x) :
    d'.content? (Cache.temporary other) = some x := by
  rw [hother.temporary] at hx ⊢
  apply h.content?_of_names_ne hfree hpath.path hpath.plain (fun n hn => ⟨job.content, hfull n hn⟩)
    hother.plain_temporary (by simp) _ _ hx
  · exact fun heq => hpath.temporary_ne [] dir' name' heq
  · exact fun heq => (hother.ne_of_ne hpath hne []).2 heq

/-- A write that is about to place its artifact has filled the temporary file. -/
theorem Stroke.content?_temporary (h : job.Stroke d d' stage) (hfree : IsFreeBelow d root)
    (hpath : job.path = root.join (dir ++ [name])) (hplain : ∀ n ∈ dir ++ [name], IsPlain n)
    (hfile : ∀ n, job.stage = .placing n →
      ∃ x, d.content? (Cache.temporary job.path) = some x) (n : Nat) (hstage : stage = .placing n) :
    d'.content? (Cache.temporary job.path) = some job.content := by
  have hkeeps := (h.toward hfree hpath hplain hfile).1
  cases h with
  | grew _ _ _ _ notPlacing => exact absurd hstage (notPlacing n)
  | wrote place text _ located _ _ full =>
    rw [hpath, temporary_join] at located ⊢
    obtain ⟨top, -, hplace, hlocate⟩ :=
      hfree.exists_place (by simp) (plain_concat_temporarySuffix hplain) located
    apply hkeeps.content? (hlocate .behind)
    rw [get?_set_self (by simp [hplace]), full n hstage]
  | placed => cases hstage

/-- A write that is done has put its text at its path. -/
theorem Stroke.content?_of_done (h : job.Stroke d d' stage) (hfree : IsFreeBelow d root)
    (hpath : job.path = root.join (dir ++ [name])) (hplain : ∀ n ∈ dir ++ [name], IsPlain n)
    (hfull : ∀ n, job.stage = .placing n →
      d.content? (Cache.temporary job.path) = some job.content) (hdone : stage.isDone) :
    d'.content? job.path = some job.content := by
  have hkeeps := (h.toward hfree hpath hplain fun n hn => ⟨job.content, hfull n hn⟩).1
  cases h with
  | grew _ _ _ notDone =>
    rw [notDone] at hdone
    cases hdone
  | wrote _ _ _ _ _ notDone =>
    rw [notDone] at hdone
    cases hdone
  | placed n old new e ready source target entry free =>
    have hcontent := hfull n ready
    rw [hpath, temporary_join] at source hcontent
    have hfile :=
      hfree.get?_of_content? (by simp) (plain_concat_temporarySuffix hplain) source hcontent
    cases entry.symm.trans hfile
    have htarget := target
    rw [hpath] at htarget
    obtain ⟨top, -, hnew, hlocate'⟩ := hfree.exists_place (by simp) hplain htarget
    rw [← hpath] at hlocate'
    exact hkeeps.content? (hlocate' .behind) (get?_set_self (by simp [hnew]))

end Job

namespace Disk

variable {d : Disk} {root path : AbsolutePath} {top way dir : List String} {name x : String}

/-- What a sweep removes below a directory without links is a file, or nothing walks there. -/
theorem keeps_erase_of_isRubbish (hr : RootAt d root top) (hfree : IsLinkFree d top) (hne : way ≠ [])
    (hrubbish : Sweep.isRubbish d root way) :
    Keeps d (d.erase (top ++ way)) ∧ ((∀ n ∈ top ++ way, IsName n) →
      ∃ x, d.get? (top ++ way) = some (.file x) ∧
        (Sweep.isTemporary (way.getLastD "") ∨ x = "")) := by
  unfold Sweep.isRubbish at hrubbish
  cases hx : d.content? (root.join way) with
  | none =>
    rw [hx] at hrubbish
    cases hrubbish
  | some x =>
    rw [hx] at hrubbish
    have hfile : (∀ n ∈ top ++ way, IsName n) → d.get? (top ++ way) = some (.file x) := by
      intro hnames
      obtain ⟨place, hlocate, hfile⟩ := content?_eq_some_iff.1 hx
      have hplain : ∀ n ∈ way, IsPlain n := fun n hn =>
        (hnames n (List.mem_append_right _ hn)).toIsPlain
      rwa [place_of_locate_join hr hfree hne hplain hlocate] at hfile
    constructor
    · apply keeps_erase _ (List.append_ne_nil_of_right_ne_nil top hne)
      intro hnames
      rw [hfile hnames]
      exact ⟨by simp, by simp⟩
    · intro hnames
      refine ⟨x, hfile hnames, ?_⟩
      simpa using hrubbish

/-- A disk after a part of a sweep: directories, links and lasting contents are as before. -/
structure Swept (root : AbsolutePath) (d d' : Disk) : Prop where
  keeps : Keeps d d'
  content : ∀ path dir name x, root.IsLasting path dir name → x ≠ "" → d.content? path = some x →
    d'.content? path = some x

theorem Swept.refl (root : AbsolutePath) (d : Disk) : Swept root d d :=
  ⟨.refl d, fun _ _ _ _ _ _ => id⟩

theorem Swept.trans {d' d'' : Disk} (h : Swept root d d') (h' : Swept root d' d'') :
    Swept root d d'' :=
  ⟨h.keeps.trans h'.keeps, fun path dir name x hpath hne hx =>
    h'.content path dir name x hpath hne (h.content path dir name x hpath hne hx)⟩

/-- Rubbish goes, and nothing that lasts. -/
theorem swept_erase (hr : RootAt d root top) (hfree : IsFreeBelow d root) (hne : way ≠ [])
    (hrubbish : Sweep.isRubbish d root way) : Swept root d (d.erase (top ++ way)) := by
  obtain ⟨hkeeps, hgone⟩ := keeps_erase_of_isRubbish hr (hfree.isLinkFree hr) hne hrubbish
  refine ⟨hkeeps, fun path dir name x hpath hx hcontent => ?_⟩
  rw [hpath.path] at hcontent ⊢
  obtain ⟨other, hlocate, hfile⟩ := content?_eq_some_iff.1 hcontent
  refine hkeeps.content? hlocate ?_
  by_cases hother : other = top ++ way
  · -- Its name is no temporary name and it is not empty, so it is no rubbish.
    exfalso
    have hnames := ((follows_of_locate hlocate).isFirm (isFirm_nil d)).2
    obtain ⟨top', hr', hplace, -⟩ := hfree.exists_place (by simp) hpath.plain hlocate
    have hway : way = dir ++ [name] := by
      rw [hr.unique hr', hother] at hplace
      exact List.append_cancel_left hplace
    rw [hother] at hnames hfile
    obtain ⟨x', hfile', hwaste⟩ := hgone hnames
    cases hfile.symm.trans hfile'
    rw [hway, List.getLastD_concat, hpath.lasting] at hwaste
    rcases hwaste with htemporary | hempty
    · cases htemporary
    · exact hx hempty
  · rw [get?_erase_ne hother, hfile]

/-- Coming to an entry below the root removes nothing that lasts. -/
theorem swept_visit (hr : RootAt d root top) (hfree : IsFreeBelow d root) {e : Entry} (hne : way ≠ [])
    (stuck : String → Bool) (removed : Nat) :
    Swept root d ((Sweep.visit stuck root top removed (way, e)).run d).2 := by
  rw [DiskM.run_visit]
  split
  · cases d.locate .behind (root.join way) <;> exact .refl root d
  · split
    · rename_i hremoved
      simp only [Bool.and_eq_true] at hremoved
      exact swept_erase hr hfree hne hremoved.1
    · exact .refl root d

theorem swept_visits (stuck : String → Bool) (entries : List (List String × Entry))
    (hne : ∀ entry ∈ entries, entry.1 ≠ []) {removed : Nat} (hr : RootAt d root top)
    (hfree : IsFreeBelow d root) :
    Swept root d ((entries.foldlM (Sweep.visit stuck root top) removed).run d).2 := by
  induction entries generalizing d removed with
  | nil => exact .refl root d
  | cons entry entries ih =>
    have hfirst := swept_visit (e := entry.2) hr hfree (hne entry (by simp)) stuck removed
    rw [List.foldlM_cons, DiskM.run_bind]
    generalize (Sweep.visit stuck root top removed (entry.1, entry.2)).run d = outcome at hfirst ⊢
    obtain ⟨result, d'⟩ := outcome
    cases result with
    | error e => exact hfirst
    | ok removed' =>
      exact hfirst.trans (ih (fun p hp => hne p (by simp [hp])) (hr.keeps hfirst.keeps)
        (hfree.keeps hfirst.keeps))

/-- A sweep removes nothing that lasts. -/
theorem swept_sweep (hfree : IsFreeBelow d root) (walk : Sweep.Walk) (stuck : String → Bool) :
    Swept root d ((DiskM.sweep walk stuck root).run d).2 := by
  rw [DiskM.run_sweep]
  split
  · exact .refl root d
  · exact .refl root d
  · rename_i top hlocate
    split
    · rename_i hdirectory
      refine swept_visits stuck _ (fun entry hentry => ?_) (rootAt_of_locate hlocate hdirectory) hfree
      exact (mem_listing.1 ((walk.perm _).mem_iff.1 hentry)).1
    · exact .refl root d

end Disk
end SchemaArtifacts
