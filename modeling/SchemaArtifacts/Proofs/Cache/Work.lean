import Mathlib.Algebra.Order.BigOperators.Group.List
import Mathlib.Algebra.Order.Ring.Nat
import SchemaArtifacts.Proofs.Cache.World

/-!
# The work that is left in a cache

Each try of a write takes six steps at most, and no try from a certain number on is followed by
another, unless tries are made without end. So a write has a bounded number of steps left, and every
step of it leaves one step less.

## Main definitions

* `Backoff.IsPatient` — tries are made without end
* `Stage.work`, `Job.work`, `Cache.work` — the steps that are left to a write, and to all of them

## Main results

* `Backoff.allows_eq_false` — the last try is not followed by another
* `Cache.work_advance_lt`, `Cache.work_settle_lt` — a step of a write and a note leave less
* `Cache.exists_work_lt` — until every end is noted there is a step, or a note, that leaves less
* `Cache.work_open_` — what a new write adds
-/

namespace SchemaArtifacts

/-- Tries are made without end, as long as each fails in passing. -/
def Backoff.IsPatient (b : Backoff) : Prop := b.maxRetries = .real (.infinity false)

/-- The last try is not followed by another. -/
theorem Backoff.allows_eq_false {b : Backoff} (h : ¬ b.IsPatient) {attempt : Nat}
    (hlast : b.tryLimit ≤ attempt) : b.allows attempt = false := by
  unfold IsPatient at h
  have hexact : ∀ x : Rat, (-(-x).floor).toNat ≤ attempt → ¬ ((attempt : Int) : Rat) < x := by
    intro x hx hlt
    have hceil : -(-x).floor ≤ (attempt : Int) := by omega
    have hfloor : -(attempt : Int) ≤ (-x).floor := by omega
    have hle := Rat.le_floor_iff.1 hfloor
    rw [Rat.intCast_neg] at hle
    exact Rat.not_lt.2 (Rat.neg_le_neg_iff.1 hle) hlt
  unfold allows Number.lt
  unfold tryLimit at hlast
  split at hlast
  · exact absurd ‹_› h
  · cases hmax : b.maxRetries with
    | int bound =>
      rw [hmax] at hlast
      have hnot := hexact bound hlast
      simp only [Number.place?]
      simpa using hnot
    | real x =>
      rw [hmax] at hlast h
      cases x with
      | nan => rfl
      | infinity negative =>
        cases negative with
        | true => simp [Number.place?]
        | false => exact absurd rfl h
      | finite negative magnitude =>
        have hnot := hexact (if negative then -magnitude else magnitude) hlast
        simp only [Number.place?]
        simpa using hnot

/-- The steps that are left to a write at a stage, when no try from `last` on is followed by
another. -/
def Stage.work (last : Nat) : Stage → Nat
  | .ready n => 6 * (last - n) + 6
  | .opening n => 6 * (last - n) + 5
  | .filling n => 6 * (last - n) + 4
  | .closing n => 6 * (last - n) + 3
  | .placing n => 6 * (last - n) + 2
  | .resting n => 6 * (last - (n + 1)) + 7
  | .ended _ => 0

/-- The steps that are left to a write, and the note of its end. -/
def Job.work (last : Nat) (job : Job) : Nat :=
  job.stage.work last + if job.settled then 0 else 1

/-- A failed try leaves less work than any step of it. -/
theorem Stage.work_setBack_lt {b : Backoff} (h : ¬ b.IsPatient) (draw : Number) (n : Nat)
    (e : Failure) : (Stage.setBack b draw n e).work b.tryLimit < 6 * (b.tryLimit - n) + 2 := by
  unfold setBack
  split
  · rename_i hagain
    split
    · have hn : n < b.tryLimit := by
        by_contra hlast
        rw [Backoff.allows_eq_false h (Nat.le_of_not_lt hlast), Bool.and_false] at hagain
        cases hagain
      simp only [work]
      omega
    · simp [work]
  · simp [work]

theorem Stage.work_after_lt {b : Backoff} (h : ¬ b.IsPatient) (draw : Number) {n bound : Nat}
    {next : Stage} (hbound : 6 * (b.tryLimit - n) + 2 ≤ bound) (hnext : next.work b.tryLimit < bound)
    (result : Except Failure Unit × Disk) :
    (Stage.after b draw n next result).1.work b.tryLimit < bound := by
  obtain ⟨_ | _, d⟩ := result
  · exact Nat.lt_of_lt_of_le (work_setBack_lt h draw n _) hbound
  · exact hnext

theorem Job.work_le (last : Nat) (job : Job) : job.work last ≤ 6 * (last + 1) + 6 := by
  unfold work
  cases job.stage <;> simp only [Stage.work] <;> split <;> omega

/-- A step of a write leaves less to it. -/
theorem Job.work_next_lt {b : Backoff} (h : ¬ b.IsPatient) (fault : Moment → Option Interruption)
    (draw : Number) {job : Job} (hf : job.stage.inFlight) (d : Disk) :
    (job.next b fault draw d).1.work b.tryLimit < job.stage.work b.tryLimit := by
  unfold next
  cases hs : job.stage with
  | resting n =>
    simp only [Stage.work]
    omega
  | ended outcome =>
    rw [hs] at hf
    cases hf
  | _ n => exact Stage.work_after_lt h draw (by simp [Stage.work]) (by simp [Stage.work]) _

/-- When one item of a list changes, so does the sum of the items by what that one counts. -/
theorem sum_map_modify {α : Type} (f : α → α) (weight : α → Nat) {as : List α} {i : Nat} {a : α}
    (h : as[i]? = some a) : ((as.modify i f).map weight).sum + weight a =
      (as.map weight).sum + weight (f a) := by
  induction as generalizing i with
  | nil => cases h
  | cons b as ih =>
    cases i with
    | zero =>
      cases h
      simp only [List.modify_zero_cons, List.map_cons, List.sum_cons]
      omega
    | succ i =>
      have hrest := ih (i := i) h
      simp only [List.modify_succ_cons, List.map_cons, List.sum_cons]
      omega

namespace Cache

variable {c : Cache} {id : Nat} {job : Job}

/-- What is left to all writes. -/
def work (c : Cache) : Nat := (c.jobs.map (Job.work c.backoff.tryLimit)).sum

theorem work_advance_lt (h : ¬ c.backoff.IsPatient) (hj : c.jobs[id]? = some job)
    (hf : job.stage.inFlight) : (c.advance id).work < c.work := by
  have hnext : (c.nextOf job).1.work c.backoff.tryLimit < job.stage.work c.backoff.tryLimit :=
    Job.work_next_lt h _ _ hf c.disk
  have hsum := sum_map_modify (fun other : Job => { other with stage := (c.nextOf job).1 })
    (Job.work c.backoff.tryLimit) hj
  unfold work
  rw [(sameWorld_advance c id).backoff, (turns_advance hj hf).jobs]
  simp only [Job.work] at hsum ⊢
  omega

theorem work_settle_lt (hj : c.jobs[id]? = some job) (hended : job.stage.inFlight = false)
    (hopen : job.settled = false) : (c.settle id).work < c.work := by
  have hsum := sum_map_modify (fun job : Job => { job with settled := true })
    (Job.work c.backoff.tryLimit) hj
  unfold work
  rw [(sameWorld_settle c id).backoff, jobs_settle hj hended hopen]
  simp only [Job.work, hopen, Bool.false_eq_true, if_false, if_true] at hsum
  omega

/-- A step of a write leaves less to do, or there is none to take. -/
theorem work_advance_lt_or (h : ∀ job ∈ c.jobs, job.stage.inFlight → ¬ c.backoff.IsPatient)
    (id : Nat) : (c.advance id).work < c.work ∨ c.advance id = c := by
  cases hj : c.jobs[id]? with
  | none =>
    refine Or.inr ?_
    simp only [advance, hj]
  | some job =>
    cases hf : job.stage.inFlight with
    | true => exact Or.inl (work_advance_lt (h job (List.mem_of_getElem? hj) hf) hj hf)
    | false => exact Or.inr (advance_of_ended hj hf)

/-- A note leaves less to do, or there is nothing to note. -/
theorem work_settle_lt_or (c : Cache) (id : Nat) : (c.settle id).work < c.work ∨ c.settle id = c := by
  cases hj : c.jobs[id]? with
  | none =>
    refine Or.inr ?_
    simp only [Cache.settle, hj]
  | some job =>
    cases hf : job.stage.inFlight with
    | true => exact Or.inr (settle_of_inFlight hj hf)
    | false =>
      cases hs : job.settled with
      | true => exact Or.inr (settle_of_settled hj hs)
      | false => exact Or.inl (work_settle_lt hj hf hs)

/-- Until every write has ended and its end is noted, a step or a note leaves less to do. -/
theorem exists_work_lt (h : ∀ job ∈ c.jobs, job.stage.inFlight → ¬ c.backoff.IsPatient)
    (hq : ¬ c.Quiescent) :
    ∃ id < c.jobs.length, (c.advance id).work < c.work ∨ (c.settle id).work < c.work := by
  have hj : ∃ job ∈ c.jobs, ¬ (job.stage.outcome?.isSome ∧ job.settled) := by
    simpa only [Quiescent, not_forall, exists_prop] using hq
  obtain ⟨job, hmem, hopen⟩ := hj
  obtain ⟨id, hid⟩ := List.getElem?_of_mem hmem
  refine ⟨id, (List.getElem?_eq_some_iff.1 hid).1, ?_⟩
  cases hf : job.stage.inFlight with
  | true => exact Or.inl (work_advance_lt (h job hmem hf) hid hf)
  | false =>
    have hsome : job.stage.outcome?.isSome := by simpa [Stage.inFlight] using hf
    exact Or.inr (work_settle_lt hid hf (by simpa [hsome] using hopen))

/-- A new write adds all its steps and the note of its end. -/
theorem work_open_ (c : Cache) (path : AbsolutePath) (content : String) :
    (c.open_ path content).work = c.work + (c.stepLimit + 1) := by
  simp only [work, open_, stepLimit, List.map_append, List.sum_append, List.map_cons, List.map_nil,
    List.sum_cons, List.sum_nil, Job.work, Stage.work]
  rfl

theorem work_le (c : Cache) : c.work ≤ c.jobs.length * (c.stepLimit + 6) := by
  have hle := List.sum_le_card_nsmul (c.jobs.map (Job.work c.backoff.tryLimit)) (c.stepLimit + 6)
    fun n hn => by
      obtain ⟨job, -, rfl⟩ := List.mem_map.1 hn
      exact job.work_le _
  simpa [work] using hle

end Cache
end SchemaArtifacts
