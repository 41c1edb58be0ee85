import Mathlib.Data.List.Induction
import SchemaArtifacts.Disk.Sweep
import SchemaArtifacts.Proofs.Disk.Walk

/-!
# What operations change on a disk

Each operation either fails and leaves the disk as it is, or changes one place, or two when a file
is given a new place. Making directories only puts directories where nothing was.

## Main definitions

* `Disk.Ahead`, `Disk.Grows` — a disk has only more directories than another

## Main results

* `DiskM.run_makeDirectory`, `DiskM.run_write`, `DiskM.run_rename`, `DiskM.run_visit` — the outcome of
  an operation and the disk then
* `DiskM.makeDirectories_preserves` — what each new directory keeps is kept
-/

namespace SchemaArtifacts

/-- What holds at the top, and below a path if it holds of the path, holds of all paths. -/
theorem AbsolutePath.parent_induction {motive : AbsolutePath → Prop}
    (top : ∀ p : AbsolutePath, p.parts = [] → motive p)
    (below : ∀ p : AbsolutePath, p.parts ≠ [] → motive p.parent → motive p) (p : AbsolutePath) :
    motive p := by
  obtain ⟨doubled, parts⟩ := p
  induction parts using List.reverseRecOn with
  | nil => exact top _ rfl
  | append_singleton above name ih =>
    refine below _ (by simp) ?_
    have hparent : AbsolutePath.parent ⟨doubled, above ++ [name]⟩ = ⟨doubled, above⟩ := by
      simp [AbsolutePath.parent]
    rwa [hparent]

namespace DiskM

variable {α β : Type}

theorem run_pure (a : α) (d : Disk) : (pure a : DiskM α).run d = (.ok a, d) := rfl

theorem run_throw (e : DiskError) (d : Disk) : (throw e : DiskM α).run d = (.error e, d) := rfl

theorem run_get (d : Disk) : (get : DiskM Disk).run d = (.ok d, d) := rfl

theorem run_modify (f : Disk → Disk) (d : Disk) :
    (modify f : DiskM PUnit).run d = (.ok ⟨⟩, f d) := rfl

theorem run_bind (act : DiskM α) (next : α → DiskM β) (d : Disk) :
    (act >>= next).run d = match act.run d with
      | (.ok a, d') => (next a).run d'
      | (.error e, d') => (.error e, d') := by
  simp only [ExceptT.run, bind, ExceptT.bind, ExceptT.mk, StateT.bind, ExceptT.bindCont]
  cases act d with
  | mk result d' => cases result <;> rfl

theorem run_tryCatch (act : DiskM α) (handle : DiskError → DiskM α) (d : Disk) :
    (tryCatch act handle : DiskM α).run d = match act.run d with
      | (.ok a, d') => (.ok a, d')
      | (.error e, d') => (handle e).run d' := by
  simp only [ExceptT.run, tryCatch, tryCatchThe, MonadExceptOf.tryCatch, ExceptT.tryCatch, ExceptT.mk, bind,
    StateT.bind]
  cases act d with
  | mk result d' => cases result <;> rfl

theorem run_locate (aim : Disk.Aim) (p : AbsolutePath) (d : Disk) :
    (locate aim p).run d = match d.locate aim p with
      | .ok place => (.ok place, d)
      | .error cause => (.error { cause, path := p.toString }, d) := by
  simp only [locate, run_bind, run_get]
  cases d.locate aim p <;> rfl

theorem run_makeDirectory (p : AbsolutePath) (d : Disk) :
    (makeDirectory p).run d = match d.locate .itself p with
      | .ok place =>
        if (d.get? place).isSome then (.error { cause := .alreadyThere, path := p.toString }, d)
        else (.ok (), d.set place .directory)
      | .error cause => (.error { cause, path := p.toString }, d) := by
  simp only [makeDirectory, run_bind, run_locate, run_get]
  cases d.locate .itself p with
  | error cause => rfl
  | ok place =>
    dsimp only
    split
    · rfl
    · rfl

theorem run_ensureDirectory (p : AbsolutePath) (d : Disk) :
    (ensureDirectory p).run d = match (makeDirectory p).run d with
      | (.ok (), d') => (.ok (), d')
      | (.error e, d') => (if d'.isDirectory p then .ok () else .error e, d') := by
  simp only [ensureDirectory, run_tryCatch, run_bind, run_get]
  cases (makeDirectory p).run d with
  | mk result d' =>
    cases result with
    | ok _ => rfl
    | error e =>
      dsimp only
      cases d'.isDirectory p <;> rfl

theorem run_write (p : AbsolutePath) (content : String) (d : Disk) :
    (write p content).run d = match d.locate .writing p with
      | .ok place =>
        if d.get? place = some .directory then
          (.error { cause := .isDirectory, path := p.toString }, d)
        else (.ok (), d.set place (.file content))
      | .error cause => (.error { cause, path := p.toString }, d) := by
  simp only [write, run_bind, run_locate, run_get]
  cases d.locate .writing p with
  | error cause => rfl
  | ok place =>
    dsimp only
    split
    · rfl
    · rfl

theorem run_rename (source target : AbsolutePath) (d : Disk) :
    (rename source target).run d = match d.locate .itself source, d.locate .itself target with
      | .ok old, .ok new =>
        match d.get? old, d.get? new with
        | none, _ =>
          (.error { cause := .missing, path := source.toString, target := target.toString }, d)
        | some _, some .directory =>
          (.error { cause := .isDirectory, path := source.toString, target := target.toString }, d)
        | some e, _ => (.ok (), (d.erase old).set new e)
      | .error cause, _ =>
        (.error { cause, path := source.toString, target := target.toString }, d)
      | _, .error cause =>
        (.error { cause, path := source.toString, target := target.toString }, d) := by
  simp only [rename, run_bind, run_get]
  cases d.locate .itself source with
  | error cause => rfl
  | ok old =>
    cases d.locate .itself target with
    | error cause => rfl
    | ok new =>
      simp only [run_bind, run_get]
      cases d.get? old with
      | none => rfl
      | some e =>
        cases d.get? new with
        | none => rfl
        | some e' => cases e' <;> rfl

/-- Making a directory with its parents: the parents first, unless they are there, then itself. -/
theorem run_makeDirectories (p : AbsolutePath) (d : Disk) :
    (makeDirectories p).run d =
      if p.parts = [] ∨ d.exists_ p.parent then (ensureDirectory p).run d
      else match (makeDirectories p.parent).run d with
        | (.ok (), d') => (ensureDirectory p).run d'
        | (.error e, d') =>
          if e.cause = .alreadyThere then (ensureDirectory p).run d' else (.error e, d') := by
  obtain ⟨doubled, parts⟩ := p
  rcases List.eq_nil_or_concat' parts with rfl | ⟨above, name, rfl⟩
  · rfl
  · have hparent : AbsolutePath.parent ⟨doubled, above ++ [name]⟩ = ⟨doubled, above⟩ := by
      simp [AbsolutePath.parent]
    rw [hparent]
    simp only [makeDirectories, List.reverse_append, List.reverse_cons, List.reverse_nil,
      List.nil_append, List.singleton_append, makeWay, List.reverse_reverse, run_bind, run_get,
      List.append_eq_nil_iff, List.cons_ne_nil, and_false, false_or]
    cases hex : d.exists_ ⟨doubled, above⟩ with
    | true => rfl
    | false =>
      simp only [Bool.false_eq_true, ↓reduceIte, run_tryCatch, run_bind]
      cases (makeWay doubled above.reverse).run d with
      | mk result d' =>
        cases result with
        | ok _ => rfl
        | error e =>
          dsimp only
          by_cases hc : e.cause = .alreadyThere
          · rw [if_pos hc, if_pos hc]
            rfl
          · rw [if_neg hc, if_neg hc]
            rfl

theorem run_visit (stuck : String → Bool) (root : AbsolutePath) (top : List String) (removed : Nat)
    (entry : List String × Entry) (d : Disk) :
    (Sweep.visit stuck root top removed entry).run d =
      if entry.2 = .directory then
        match d.locate .behind (root.join entry.1) with
        | .ok _ => (.ok removed, d)
        | .error cause => (.error { cause, path := (root.join entry.1).toString }, d)
      else if Sweep.isRubbish d root entry.1 && !stuck (entry.1.getLastD "") then
        (.ok (removed + 1), d.erase (top ++ entry.1))
      else (.ok removed, d) := by
  unfold Sweep.visit
  split
  · simp only [run_bind, run_locate]
    cases d.locate .behind (root.join entry.1) <;> rfl
  · simp only [run_bind, run_get]
    split <;> rfl

theorem run_sweep (walk : Sweep.Walk) (stuck : String → Bool) (root : AbsolutePath) (d : Disk) :
    (sweep walk stuck root).run d = match d.locate .behind root with
      | .error .nameTooLong => (.error { cause := .nameTooLong, path := root.toString }, d)
      | .error _ => (.ok 0, d)
      | .ok top =>
        if d.get? top = some .directory then
          ((walk.arrange (Sweep.listing d top)).foldlM (Sweep.visit stuck root top) 0).run d
        else (.ok 0, d) := by
  simp only [sweep, run_bind, run_get]
  cases d.locate .behind root with
  | error cause => cases cause <;> rfl
  | ok top =>
    dsimp only
    split <;> rfl

end DiskM

namespace Disk

variable {d d' d'' : Disk} {place : List String} {e : Entry}

/-- At a place a disk has what another has, or a directory where the other has nothing. -/
def Ahead (d d' : Disk) (place : List String) : Prop :=
  d'.get? place = d.get? place ∨ d.get? place = none ∧ d'.get? place = some .directory

/-- A disk has only more directories than another. -/
def Grows (d d' : Disk) : Prop := ∀ place, Ahead d d' place

theorem Ahead.get?_of_some (h : Ahead d d' place) (he : d.get? place = some e) :
    d'.get? place = some e := by
  rcases h with heq | ⟨hnone, -⟩
  · rw [heq, he]
  · rw [he] at hnone
    cases hnone

theorem Ahead.trans (h : Ahead d d' place) (h' : Ahead d' d'' place) : Ahead d d'' place := by
  rcases h with heq | ⟨hnone, hdir⟩
  · rcases h' with heq' | ⟨hnone', hdir'⟩
    · exact Or.inl (heq'.trans heq)
    · exact Or.inr ⟨heq ▸ hnone', hdir'⟩
  · exact Or.inr ⟨hnone, h'.get?_of_some hdir⟩

theorem Grows.get?_of_some (h : Grows d d') (he : d.get? place = some e) :
    d'.get? place = some e :=
  (h place).get?_of_some he

theorem Grows.keeps (h : Grows d d') : Keeps d d' := by
  refine ⟨fun place _ => h.get?_of_some, fun place target _ => h.get?_of_some,
    fun place target hl => ?_⟩
  rcases h place with heq | ⟨-, hdir⟩
  · rw [← heq, hl]
  · rw [hl] at hdir
    cases hdir

theorem grows_set (h : d.get? place = none) : Grows d (d.set place .directory) := by
  intro other
  have hne : place ≠ [] := by
    rintro rfl
    simp at h
  by_cases ho : other = place
  · subst ho
    exact Or.inr ⟨h, get?_set_self hne⟩
  · exact Or.inl (get?_set_ne ho)

/-- A file in the place of what is neither a directory nor a link. -/
theorem keeps_set (hd : d.get? place ≠ some .directory)
    (hl : ∀ target, d.get? place ≠ some (.link target)) (content : String) :
    Keeps d (d.set place (.file content)) := by
  have hne : place ≠ [] := by
    rintro rfl
    simp at hd
  have hother : ∀ other e, d.get? other = some e → (e = .directory ∨ ∃ target, e = .link target) →
      (d.set place (.file content)).get? other = some e := by
    intro other e he hkind
    rw [get?_set_ne, he]
    rintro rfl
    rcases hkind with rfl | ⟨target, rfl⟩
    · exact hd he
    · exact hl target he
  refine ⟨fun other _ h => hother other _ h (.inl rfl),
    fun other target _ h => hother other _ h (.inr ⟨target, rfl⟩), fun other target h => ?_⟩
  by_cases ho : other = place
  · subst ho
    simp [get?_set_self hne] at h
  · rwa [get?_set_ne ho] at h

/-- What is neither a directory nor a link goes away, or what no walk leads to. -/
theorem keeps_erase (h : (∀ name ∈ place, IsName name) →
    d.get? place ≠ some .directory ∧ ∀ target, d.get? place ≠ some (.link target))
    (hne : place ≠ []) : Keeps d (d.erase place) := by
  have hother : ∀ other e, (∀ name ∈ other, IsName name) → d.get? other = some e →
      (e = .directory ∨ ∃ target, e = .link target) → (d.erase place).get? other = some e := by
    intro other e hn he hkind
    rw [get?_erase_ne, he]
    rintro rfl
    rcases hkind with rfl | ⟨target, rfl⟩
    · exact (h hn).1 he
    · exact (h hn).2 target he
  refine ⟨fun other hn h => hother other _ hn h (.inl rfl),
    fun other target hn h => hother other _ hn h (.inr ⟨target, rfl⟩), fun other target h => ?_⟩
  by_cases ho : other = place
  · subst ho
    simp [get?_erase_self hne] at h
  · rwa [get?_erase_ne ho] at h

end Disk

/-- A path is a directory on the way to another, or the other itself. -/
structure AbsolutePath.IsAbove (q p : AbsolutePath) : Prop where
  doubled : q.doubled = p.doubled
  parts : q.parts <+: p.parts

namespace DiskM
open Disk

theorem ensureDirectory_preserves {Q : Disk → Prop} {p : AbsolutePath}
    (step : ∀ d place, Q d → d.locate .itself p = .ok place → d.get? place = none →
      Q (d.set place .directory)) {d : Disk} (h : Q d) : Q ((ensureDirectory p).run d).2 := by
  have hmake : Q ((makeDirectory p).run d).2 := by
    rw [run_makeDirectory]
    split
    · rename_i place hplace
      split
      · exact h
      · rename_i hnone
        exact step d place h hplace (by simpa using hnone)
    · exact h
  rw [run_ensureDirectory]
  cases hrun : (makeDirectory p).run d with
  | mk result d' =>
    rw [hrun] at hmake
    cases result <;> exact hmake

/-- Making directories puts them one by one where nothing was. What this keeps is kept. -/
theorem makeDirectories_preserves {Q : Disk → Prop} {p : AbsolutePath}
    (step : ∀ d place q, q.IsAbove p → Q d → d.locate .itself q = .ok place →
      d.get? place = none → Q (d.set place .directory)) {d : Disk} (h : Q d) :
    Q ((makeDirectories p).run d).2 := by
  induction p using AbsolutePath.parent_induction generalizing d with
  | top p hp =>
    rw [run_makeDirectories, if_pos (Or.inl hp)]
    exact ensureDirectory_preserves (fun d place => step d place p ⟨rfl, List.prefix_refl _⟩) h
  | below p hp ih =>
    have hself : ∀ {d}, Q d → Q ((ensureDirectory p).run d).2 := fun h =>
      ensureDirectory_preserves (fun d place => step d place p ⟨rfl, List.prefix_refl _⟩) h
    rw [run_makeDirectories]
    split
    · exact hself h
    · have hparent : Q ((makeDirectories p.parent).run d).2 :=
        ih (fun d place q hq => step d place q
          ⟨hq.doubled, hq.parts.trans (List.dropLast_prefix _)⟩) h
      cases hrun : (makeDirectories p.parent).run d with
      | mk result d' =>
        rw [hrun] at hparent
        cases result with
        | ok _ => exact hself hparent
        | error e =>
          dsimp only
          split
          · exact hself hparent
          · exact hparent

end DiskM
end SchemaArtifacts
