import SchemaArtifacts.Proofs.Cache.Aftermath
import SchemaArtifacts.Proofs.Cache.Tries
import SchemaArtifacts.Proofs.Session.Serving

/-!
# Callers of one write

When nothing is on its way but one write, all that can happen to the cache is that this write takes its
steps and its end is noted, whoever waits for it and in whatever order the steps are taken. So it comes to
one end only, and all who wait for it are served with that.

## Main definitions

* `Cache.IsAlone` — nothing is on its way but one write, whose end is yet to be noted
* `Cache.RunsAlone` — this write has taken some steps, and its end may have been noted
* `Session.AwaitsOne` — callers who wait for it, or were served with its end

## Main results

* `Cache.RunsAlone.eq_of_ready` — until its first step the cache is as it was
* `Cache.RunsAlone.eq_drain` — the one end
* `Session.AwaitsOne.playAll` — callers go on waiting for it
-/

namespace SchemaArtifacts

open Cache Relation

/-! ## One write -/

theorem Stage.setBack_ne_ready {b : Backoff} {draw : Number} {n : Nat} {e : Failure} :
    Stage.setBack b draw n e ≠ .ready 0 := by
  unfold setBack
  split
  · split <;> simp
  · simp

theorem Stage.after_ne_ready {b : Backoff} {draw : Number} {n : Nat} {next : Stage}
    (hnext : next ≠ .ready 0) (result : Except Failure Unit × Disk) :
    (Stage.after b draw n next result).1 ≠ .ready 0 := by
  obtain ⟨_ | _, d⟩ := result
  · exact setBack_ne_ready
  · exact hnext

/-- No step of a write leads back to where it began. -/
theorem Job.next_ne_ready (b : Backoff) (fault : Moment → Option Interruption) (draw : Number)
    (job : Job) (d : Disk) : (job.next b fault draw d).1 ≠ .ready 0 := by
  unfold next
  cases job.stage with
  | resting n => simp
  | ended outcome => simp
  | _ n => exact Stage.after_ne_ready (by simp) _

namespace Cache

variable {b d d' : Cache} {id : Nat} {job : Job}

/-- Nothing is on its way but one write, whose end is yet to be noted. -/
structure IsAlone (b : Cache) (id : Nat) (job : Job) : Prop where
  there : b.jobs[id]? = some job
  unnoted : job.settled = false
  others : ∀ (other : Nat) (job' : Job), other ≠ id → b.jobs[other]? = some job' →
    job'.stage.inFlight = false ∧ job'.settled

/-- The write has taken some steps, and its end may have been noted. -/
inductive RunsAlone (b : Cache) (id : Nat) : Cache → Prop where
  | ran (steps : Nat) : RunsAlone b id (b.run id steps)
  | noted (steps : Nat) (ended : (b.run id steps).hasEnded id) :
      RunsAlone b id ((b.run id steps).settle id)

theorem IsAlone.advance (h : b.IsAlone id job) (hf : job.stage.inFlight) :
    (b.advance id).IsAlone id { job with stage := (b.nextOf job).1 } := by
  have hturns := turns_advance h.there hf
  refine ⟨hturns.getElem? h.there, h.unnoted, fun other job' hne hj' => ?_⟩
  rcases (getElem?_modify_jobs h.there hturns.jobs).1 hj' with ⟨-, hj'⟩ | ⟨rfl, -⟩
  · exact h.others other job' hne hj'
  · exact absurd rfl hne

/-- The write is still the only one after it has taken some steps, and does not come back to where it
began. -/
theorem IsAlone.exists_run (h : b.IsAlone id job) (steps : Nat) :
    ∃ stage, (b.run id steps).IsAlone id { job with stage } ∧
      (job.stage ≠ .ready 0 → stage ≠ .ready 0) := by
  induction steps generalizing b job with
  | zero => exact ⟨job.stage, h, fun hne => hne⟩
  | succ steps ih =>
    cases hf : job.stage.inFlight with
    | false =>
      rw [run_of_ended h.there hf]
      exact ⟨job.stage, h, fun hne => hne⟩
    | true =>
      rw [run_of_inFlight h.there hf]
      obtain ⟨stage, hran, hne⟩ := ih (h.advance hf)
      exact ⟨stage, hran, fun _ => hne (Job.next_ne_ready _ _ _ _ _)⟩

/-- When the end of the write is noted, all writes have ended and all ends are noted. -/
theorem IsAlone.noted (h : b.IsAlone id job) (hended : job.stage.inFlight = false) {other : Nat}
    {job' : Job} (hj' : (b.settle id).jobs[other]? = some job') :
    job'.stage.inFlight = false ∧ job'.settled := by
  rcases (getElem?_modify_jobs h.there (jobs_settle h.there hended h.unnoted)).1 hj' with
    ⟨hne, hj'⟩ | ⟨rfl, rfl⟩
  · exact h.others other job' hne hj'
  · exact ⟨hended, rfl⟩

theorem RunsAlone.advance (h : b.RunsAlone id d) (halone : b.IsAlone id job) (other : Nat) :
    b.RunsAlone id (d.advance other) := by
  cases h with
  | ran steps =>
    obtain ⟨stage, hran, -⟩ := halone.exists_run steps
    by_cases ho : other = id
    · subst ho
      cases hf : stage.inFlight with
      | true =>
        have hrun : b.run other (steps + 1) = (b.run other steps).advance other := by
          rw [run_add, run_of_inFlight hran.there hf, run_zero]
        rw [← hrun]
        exact .ran (steps + 1)
      | false =>
        rw [advance_of_ended hran.there hf]
        exact .ran steps
    · cases hj : (b.run id steps).jobs[other]? with
      | none =>
        simp only [Cache.advance, hj]
        exact .ran steps
      | some job' =>
        rw [advance_of_ended hj (hran.others other job' ho hj).1]
        exact .ran steps
  | noted steps ended =>
    obtain ⟨stage, hran, -⟩ := halone.exists_run steps
    have hended := inFlight_eq_false_of_hasEnded hran.there ended
    rw [advance_of_all_ended fun job' hmem => ?_]
    · exact .noted steps ended
    · obtain ⟨k, hk⟩ := List.getElem?_of_mem hmem
      exact (hran.noted hended hk).1

theorem RunsAlone.settle (h : b.RunsAlone id d) (halone : b.IsAlone id job) (other : Nat) :
    b.RunsAlone id (d.settle other) := by
  cases h with
  | ran steps =>
    obtain ⟨stage, hran, -⟩ := halone.exists_run steps
    by_cases ho : other = id
    · subst ho
      cases hf : stage.inFlight with
      | true =>
        rw [settle_of_inFlight hran.there hf]
        exact .ran steps
      | false =>
        refine .noted steps ?_
        rw [Delivery.hasEnded_iff hran.there, hf]
        rfl
    · cases hj : (b.run id steps).jobs[other]? with
      | none =>
        simp only [Cache.settle, hj]
        exact .ran steps
      | some job' =>
        rw [settle_of_settled hj (hran.others other job' ho hj).2]
        exact .ran steps
  | noted steps ended =>
    obtain ⟨stage, hran, -⟩ := halone.exists_run steps
    have hended := inFlight_eq_false_of_hasEnded hran.there ended
    cases hj : ((b.run id steps).settle id).jobs[other]? with
    | none =>
      have hsame : ((b.run id steps).settle id).settle other = (b.run id steps).settle id := by
        rw [Cache.settle, hj]
      rw [hsame]
      exact .noted steps ended
    | some job' =>
      rw [settle_of_settled hj (hran.noted hended hj).2]
      exact .noted steps ended

theorem RunsAlone.operations (h : b.RunsAlone id d) : ReflTransGen Operation b d := by
  cases h with
  | ran steps => exact operations_run b id steps
  | noted steps ended => exact (operations_run b id steps).tail (.settle id)

theorem balanced_of_operations (h : ReflTransGen Operation b d) (hb : b.Balanced) : d.Balanced := by
  induction h with
  | refl => exact hb
  | tail _ hop ih => exact hop.books.balanced ih

theorem sameWorld_of_operations (h : ReflTransGen Operation b d) : SameWorld b d := by
  induction h with
  | refl => exact .refl b
  | tail _ hop ih => exact ih.trans hop.sameWorld

/-- As long as the write has not taken a step, the cache is as it was. -/
theorem RunsAlone.eq_of_ready (h : b.RunsAlone id d) (halone : b.IsAlone id job)
    (hready : job.stage = .ready 0) {job' : Job} (hj' : d.jobs[id]? = some job')
    (hready' : job'.stage = .ready 0) : d = b := by
  cases h with
  | ran steps =>
    cases steps with
    | zero => rfl
    | succ steps =>
      have hf : job.stage.inFlight := by rw [hready]; rfl
      obtain ⟨stage, hran, hne⟩ := (halone.advance hf).exists_run steps
      rw [run_of_inFlight halone.there hf] at hj'
      cases hj'.symm.trans hran.there
      exact absurd hready' (hne (Job.next_ne_ready _ _ _ _ _))
  | noted steps ended =>
    obtain ⟨stage, hran, -⟩ := halone.exists_run steps
    have hended := inFlight_eq_false_of_hasEnded hran.there ended
    have hended' := (hran.noted hended hj').1
    rw [hready'] at hended'
    cases hended'

theorem RunsAlone.exists_of_quiescent (h : b.RunsAlone id d) (halone : b.IsAlone id job)
    (quiet : d.Quiescent) : ∃ steps, (b.run id steps).hasEnded id ∧ d = (b.run id steps).settle id := by
  cases h with
  | ran steps =>
    obtain ⟨stage, hran, -⟩ := halone.exists_run steps
    have hnoted := (quiet _ (List.mem_of_getElem? hran.there)).2
    rw [show ({ job with stage } : Job).settled = false from halone.unnoted] at hnoted
    cases hnoted
  | noted steps ended => exact ⟨steps, ended, rfl⟩

/-- Unless tries are made without end, the write comes to one end only. -/
theorem RunsAlone.eq_drain (h : b.RunsAlone id d) (halone : b.IsAlone id job)
    (hlimited : ¬ b.backoff.IsPatient) (quiet : d.Quiescent)
    (hready : job.stage = .ready 0) : d = b.drain id := by
  obtain ⟨steps, hended, rfl⟩ := h.exists_of_quiescent halone quiet
  have hwork : job.stage.work b.backoff.tryLimit ≤ b.stepLimit := by
    rw [hready]
    exact Nat.le_refl _
  rw [drain, run_eq_of_hasEnded hended (hasEnded_run hlimited halone.there hwork)]

/-- The end of a write stays what it is. -/
theorem outcome_of_operation (hop : d.Operation d') (hended : d.hasEnded id) :
    d'.hasEnded id ∧ d'.outcome id = d.outcome id := by
  cases hj : d.jobs[id]? with
  | none => simp [hasEnded, hj] at hended
  | some job =>
    have hf := inFlight_eq_false_of_hasEnded hj hended
    obtain ⟨job', hj', hlater⟩ := hop.books.exists_later hj
    have hstage := hlater.stage hf
    refine ⟨?_, ?_⟩
    · rw [Delivery.hasEnded_iff hj', hstage, hf]
      rfl
    · simp only [outcome, hj, hj', hstage, hlater.path]

theorem RunsAlone.hasEnded_of_isSettled (h : b.RunsAlone id d) (halone : b.IsAlone id job)
    (hsettled : d.isSettled id) : d.hasEnded id := by
  cases h with
  | ran steps =>
    obtain ⟨stage, hran, -⟩ := halone.exists_run steps
    rw [isSettled, hran.there] at hsettled
    simp [halone.unnoted] at hsettled
  | noted steps ended => exact (outcome_of_operation (.settle id) ended).1

end Cache

/-! ## Those who wait for it -/

namespace Session

variable {b : Cache} {id : Nat} {job : Job} {s t : Session} {moves : List Move}

/-- Callers wait for one write, or were served with its end. -/
structure AwaitsOne (b : Cache) (id : Nat) (s : Session) : Prop where
  deliveries : s.deliveries = []
  cache : b.RunsAlone id s.cache
  callers : ∀ caller ∈ s.callers, caller.stage = .waiting id ∨
    s.cache.hasEnded id ∧ caller.stage = .served (s.cache.outcome id)

theorem AwaitsOne.of_operation (h : AwaitsOne b id s) {d : Cache} (hop : s.cache.Operation d)
    (hd : b.RunsAlone id d) : AwaitsOne b id { s with cache := d } where
  deliveries := h.deliveries
  cache := hd
  callers caller hcaller := by
    refine (h.callers caller hcaller).imp_right fun ⟨hended, hserved⟩ => ?_
    obtain ⟨hended', hsame⟩ := outcome_of_operation hop hended
    exact ⟨hended', by rw [hserved, hsame]⟩

theorem AwaitsOne.serves (h : AwaitsOne b id s) (halone : b.IsAlone id job) (hst : s.Serves t) :
    AwaitsOne b id t := by
  cases hst with
  | still => exact h
  | called i caller there =>
    have hcaller := h.callers caller (List.mem_of_getElem? there)
    have hcache : (caller.step s.cache).1 = s.cache := by
      refine Caller.cache_step_of_ne_asking ?_
      rcases hcaller with hs | ⟨-, hs⟩ <;> simp [hs]
    rw [hcache]
    refine ⟨h.deliveries, h.cache, fun other hother => ?_⟩
    rcases List.mem_or_eq_of_mem_set hother with hmem | rfl
    · exact h.callers other hmem
    · rcases hcaller with hs | ⟨hended, hs⟩
      · rw [Caller.step_of_waiting hs]
        dsimp only [Caller.wait]
        split
        · exact Or.inr ⟨h.cache.hasEnded_of_isSettled halone ‹_›, rfl⟩
        · exact Or.inl rfl
      · rw [Caller.step_of_served hs]
        exact Or.inr ⟨hended, hs⟩
  | advanced other => exact h.of_operation (.advance other) (h.cache.advance halone other)
  | noted other => exact h.of_operation (.settle other) (h.cache.settle halone other)

theorem AwaitsOne.playAll (h : AwaitsOne b id s) (halone : b.IsAlone id job)
    (hcalm : ∀ m ∈ moves, m.isCalm) : AwaitsOne b id (s.playAll moves) := by
  induction moves generalizing s with
  | nil => exact h
  | cons m moves ih =>
    obtain ⟨hm, hrest⟩ := List.forall_mem_cons.1 hcalm
    exact ih (h.serves halone (serves_play h.deliveries hm)) hrest

/-- Those who wait for a write are served if it is not tried without end. -/
theorem AwaitsOne.isServing (h : AwaitsOne b id s) (halone : b.IsAlone id job) (hb : b.Balanced)
    (hlimited : b.backoff.IsPatient → job.stage.inFlight = false) : s.IsServing where
  deliveries := h.deliveries
  balanced := balanced_of_operations h.cache.operations hb
  awaited caller hcaller id' hid := by
    obtain ⟨job', hj', -⟩ := exists_later_of_operations h.cache.operations halone.there
    rcases h.callers caller hcaller with hs | ⟨-, hs⟩
    · cases hs.symm.trans hid
      exact (List.getElem?_eq_some_iff.1 hj').1
    · cases hs.symm.trans hid
  limited hpatient := by
    rw [(sameWorld_of_operations h.cache.operations).backoff] at hpatient
    have hended := hlimited hpatient
    refine ⟨fun job' hmem => ?_, fun caller hcaller => ?_⟩
    · obtain ⟨other, hj'⟩ := List.getElem?_of_mem hmem
      have hcache := h.cache
      generalize s.cache = d at hcache hj'
      cases hcache with
      | ran steps =>
        rw [run_of_ended halone.there hended] at hj'
        by_cases ho : other = id
        · subst ho
          cases hj'.symm.trans halone.there
          exact hended
        · exact (halone.others other job' ho hj').1
      | noted steps =>
        rw [run_of_ended halone.there hended] at hj'
        exact (halone.noted hended hj').1
    · rcases h.callers caller hcaller with hs | ⟨-, hs⟩ <;> simp [hs]

/-- Whoever was served was served with the end of the write. -/
theorem AwaitsOne.eq_of_answer? (h : AwaitsOne b id s) {i : Nat}
    {result : Except Failure AbsolutePath} (hresult : s.answer? i = some result) :
    result = s.cache.outcome id := by
  obtain ⟨caller, hcaller, hserved⟩ := Option.bind_eq_some_iff.1 hresult
  unfold Caller.result? at hserved
  rcases h.callers caller (List.mem_of_getElem? hcaller) with hs | ⟨-, hs⟩
  · simp [hs] at hserved
  · rw [hs] at hserved
    exact (Option.some.inj hserved).symm

/-- When nothing is on its way, everybody was served. -/
theorem Quiescent.exists_answer? (quiet : s.Quiescent) {i : Nat} (hi : i < s.callers.length) :
    ∃ result, s.answer? i = some result := by
  rw [answer?, List.getElem?_eq_getElem hi]
  exact Option.isSome_iff_exists.1 (quiet.2.1 _ (List.getElem_mem hi))

theorem AwaitsOne.answer?_of_quiescent (h : AwaitsOne b id s) (quiet : s.Quiescent) {i : Nat}
    (hi : i < s.callers.length) : s.answer? i = some (s.cache.outcome id) := by
  obtain ⟨result, hresult⟩ := quiet.exists_answer? hi
  rw [hresult, h.eq_of_answer? hresult]

theorem AwaitsOne.results_of_quiescent (h : AwaitsOne b id s) (quiet : s.Quiescent) :
    s.results = List.replicate s.callers.length (s.cache.outcome id) := by
  refine results_eq (by simp) fun i result hi => ?_
  rw [List.getElem?_replicate] at hi
  split at hi
  · cases hi
    exact h.answer?_of_quiescent quiet ‹_›
  · cases hi

end Session
end SchemaArtifacts
