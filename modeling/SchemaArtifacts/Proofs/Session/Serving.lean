import SchemaArtifacts.Proofs.Cache.Trace
import SchemaArtifacts.Proofs.Session.Asking

/-!
# Callers are served

Where there are no deliveries, what happens calmly is a step of a caller or of a write, or a note. A
caller who asks has the steps of a write to come, and one who waits has one step left. So finishing
serves everybody, unless a write is tried without end.

## Main definitions

* `Session.Serves` — what a calm move does where there are no deliveries
* `Session.effort` — the steps that are left to the writes and the callers of a session
* `Session.IsServing` — callers on their own, who cannot wait for ever

## Main results

* `Session.serves_play` — calm moves where there are no deliveries
* `Session.comesToRest_isServing` — calm moves leave less to do
* `Session.IsServing.quiescent_finish` — finishing serves everybody
* `Session.leadsCalmly_finish` — finishing is calm
-/

namespace SchemaArtifacts

open Cache

namespace Cache

variable {c : Cache} {id : Nat} {job : Job} {path : AbsolutePath}

theorem Books.lt_length_jobs {c' : Cache} (h : Books c c') (hid : id < c.jobs.length) :
    id < c'.jobs.length := by
  obtain ⟨job', hj', -⟩ := h.exists_later (List.getElem?_eq_getElem hid)
  exact (List.getElem?_eq_some_iff.1 hj').1

/-- The note of an end changes no stage. -/
theorem exists_of_mem_jobs_settle (h : job ∈ (c.settle id).jobs) :
    ∃ job' ∈ c.jobs, job.stage = job'.stage := by
  cases hj : c.jobs[id]? with
  | none =>
    simp only [settle, hj] at h
    exact ⟨job, h, rfl⟩
  | some noted =>
    cases hf : noted.stage.inFlight with
    | true =>
      rw [settle_of_inFlight hj hf] at h
      exact ⟨job, h, rfl⟩
    | false =>
      cases hs : noted.settled with
      | true =>
        rw [settle_of_settled hj hs] at h
        exact ⟨job, h, rfl⟩
      | false =>
        obtain ⟨other, hother⟩ := List.getElem?_of_mem h
        rcases (getElem?_modify_jobs hj (jobs_settle hj hf hs)).1 hother with ⟨-, hsame⟩ | ⟨-, rfl⟩
        · exact ⟨job, List.mem_of_getElem? hsame, rfl⟩
        · exact ⟨noted, List.mem_of_getElem? hj, rfl⟩

theorem advance_of_all_ended (h : ∀ job ∈ c.jobs, job.stage.inFlight = false) (id : Nat) :
    c.advance id = c := by
  cases hj : c.jobs[id]? with
  | none => simp only [advance, hj]
  | some job => exact advance_of_ended hj (h job (List.mem_of_getElem? hj))

/-- Whoever joins a write or begins one adds the steps of a write at most. -/
theorem work_seek_le (c : Cache) (path : AbsolutePath) (content : String) :
    (c.seek path content).1.work ≤ c.work + (c.stepLimit + 1) := by
  unfold seek
  split
  · exact Nat.le_add_right _ _
  · exact Nat.le_of_eq (work_open_ c path content)

end Cache

/-! ## Callers -/

namespace Caller

variable {caller : Caller} {c : Cache} {id : Nat}

/-- The steps that are left to a caller at a stage, and those of a write that may begin. -/
def Stage.work (steps : Nat) : Stage → Nat
  -- Before it waits, a caller counts the steps of a write, the note of its end and its own steps.
  | .asking => steps + 3
  | .waiting _ => 1
  | .served _ => 0

theorem Stage.work_le (steps : Nat) (stage : Stage) : stage.work steps ≤ steps + 6 := by
  cases stage <;> simp only [work] <;> omega

/-- A caller waits for a write that there is. -/
theorem lt_of_step (hb : c.Balanced)
    (hwaiting : ∀ id, caller.stage = .waiting id → id < c.jobs.length)
    (h : (caller.step c).2.stage = .waiting id) : id < (caller.step c).1.jobs.length := by
  cases hs : caller.stage with
  | asking =>
    rw [step_of_target hs] at h ⊢
    cases htarget : c.target caller.address with
    | error e => simp [htarget] at h
    | ok path =>
      simp only [htarget, join] at h ⊢
      split at h
      · cases h
      · cases h
        obtain ⟨job, hj, -⟩ := hb.exists_seek path caller.content
        exact (List.getElem?_eq_some_iff.1 hj).1
  | waiting id' =>
    rw [step_of_waiting hs] at h ⊢
    simp only [wait] at h
    split at h
    · cases h
    · cases h
      exact hwaiting id hs
  | served result =>
    rw [step_of_served hs, hs] at h
    cases h

/-- A step of a caller leaves less to do, unless the caller has been served or waits for a write whose
end is not noted. Then it changes nothing. -/
theorem work_step_lt (caller : Caller) (c : Cache) :
    (caller.step c).1.work + (caller.step c).2.stage.work c.stepLimit <
        c.work + caller.stage.work c.stepLimit ∨
      caller.step c = (c, caller) ∧ ∀ id, caller.stage = .waiting id → c.isSettled id = false := by
  cases hs : caller.stage with
  | asking =>
    refine Or.inl ?_
    rw [step_of_target hs]
    split
    · simp only [Stage.work]
      omega
    · rename_i path _
      have hle := work_seek_le c path caller.content
      have hjoin : (join (c.seek path caller.content).1 (c.seek path caller.content).2).work
          c.stepLimit ≤ 1 := by
        unfold join
        split <;> simp [Stage.work]
      simp only [Stage.work] at hjoin ⊢
      omega
  | waiting id =>
    rw [step_of_waiting hs]
    cases hsettled : c.isSettled id with
    | true =>
      refine Or.inl ?_
      simp only [wait, hsettled, if_true, Stage.work]
      omega
    | false =>
      refine Or.inr ⟨?_, fun id' hid => ?_⟩
      · simp only [wait, hsettled, Bool.false_eq_true, if_false, ← hs]
      · cases hid
        exact hsettled
  | served result => exact Or.inr ⟨step_of_served hs, fun id hid => by cases hid⟩

end Caller

namespace Session

variable {s t : Session} {m : Move} {moves : List Move}

/-! ## Calm moves without deliveries -/

/-- What a calm move does to a session without deliveries. -/
inductive Serves (s : Session) : Session → Prop where
  | still : Serves s s
  | called (i : Nat) (caller : Caller) (there : s.callers[i]? = some caller) :
      Serves s { s with
        cache := (caller.step s.cache).1
        callers := s.callers.set i (caller.step s.cache).2 }
  | advanced (id : Nat) : Serves s { s with cache := s.cache.advance id }
  | noted (id : Nat) : Serves s { s with cache := s.cache.settle id }

theorem serves_play (h : s.deliveries = []) (hm : m.isCalm) : s.Serves (s.play m) := by
  have hplays := s.plays_play m
  generalize s.play m = t at hplays ⊢
  cases hplays with
  | still => exact .still
  | calls i caller there => exact .called i caller there
  | delivers _ i d there => simp [h] at there
  | writes id => exact .advanced id
  | settles id => exact .noted id
  | givesUp | abandons | callsOff => cases hm

/-! ## Everybody is served -/

/-- The steps that are left to the writes and the callers of a session. -/
def effort (s : Session) : Nat :=
  s.cache.work + (s.callers.map fun caller => caller.stage.work s.cache.stepLimit).sum

/-- Callers are on their own and wait for writes that there are. Where tries are made without end, there
is nothing left to try. -/
structure IsServing (s : Session) : Prop where
  deliveries : s.deliveries = []
  balanced : s.cache.Balanced
  awaited : ∀ caller ∈ s.callers, ∀ id, caller.stage = .waiting id → id < s.cache.jobs.length
  limited : s.cache.backoff.IsPatient →
    (∀ job ∈ s.cache.jobs, job.stage.inFlight = false) ∧
      ∀ caller ∈ s.callers, caller.stage ≠ .asking

theorem isServing_callers {c : Cache} (h : c.Balanced) (hlimited : ¬ c.backoff.IsPatient)
    (stores : List (Address × String)) : (c.callers stores).IsServing := by
  refine ⟨rfl, h, fun caller hcaller id hid => ?_, fun hpatient => absurd hpatient hlimited⟩
  obtain ⟨store, -, rfl⟩ := List.mem_map.1 hcaller
  cases hid

/-- What callers wait for is still there after an operation. -/
theorem IsServing.of_operation {c : Cache} (h : s.IsServing) (hop : s.cache.Operation c)
    (hlimited : c.backoff.IsPatient → ∀ job ∈ c.jobs, job.stage.inFlight = false) :
    IsServing { s with cache := c } where
  deliveries := h.deliveries
  balanced := hop.books.balanced h.balanced
  awaited caller hcaller id hid := hop.books.lt_length_jobs (h.awaited caller hcaller id hid)
  limited hpatient := by
    refine ⟨hlimited hpatient, ?_⟩
    rw [hop.sameWorld.backoff] at hpatient
    exact (h.limited hpatient).2

theorem IsServing.set {i : Nat} {caller : Caller} (h : s.IsServing)
    (hwaiting : ∀ id, caller.stage = .waiting id → id < s.cache.jobs.length)
    (hstage : caller.stage ≠ .asking) : IsServing { s with callers := s.callers.set i caller } where
  deliveries := h.deliveries
  balanced := h.balanced
  awaited other hother := by
    rcases List.mem_or_eq_of_mem_set hother with hmem | rfl
    · exact h.awaited other hmem
    · exact hwaiting
  limited hpatient := by
    refine ⟨(h.limited hpatient).1, fun other hother => ?_⟩
    rcases List.mem_or_eq_of_mem_set hother with hmem | rfl
    · exact (h.limited hpatient).2 other hmem
    · exact hstage

theorem IsServing.serves (h : s.IsServing) (hst : s.Serves t) : t.IsServing := by
  cases hst with
  | still => exact h
  | called i caller there =>
    have hop := Caller.operation_step caller s.cache
    have hmem := List.mem_of_getElem? there
    have hcache : IsServing { s with cache := (caller.step s.cache).1 } := by
      refine h.of_operation hop fun hpatient => ?_
      rw [hop.sameWorld.backoff] at hpatient
      obtain ⟨hended, hasks⟩ := h.limited hpatient
      rwa [caller.cache_step_of_ne_asking (hasks caller hmem)]
    refine hcache.set (fun id hid => ?_) ?_
    · exact caller.lt_of_step h.balanced (h.awaited caller hmem) hid
    · exact caller.step_ne_asking s.cache
  | advanced id =>
    refine h.of_operation (.advance id) fun hpatient => ?_
    rw [(sameWorld_advance s.cache id).backoff] at hpatient
    have hended := (h.limited hpatient).1
    rwa [advance_of_all_ended hended]
  | noted id =>
    refine h.of_operation (.settle id) fun hpatient job hjob => ?_
    rw [(sameWorld_settle s.cache id).backoff] at hpatient
    obtain ⟨job', hjob', hstage⟩ := exists_of_mem_jobs_settle hjob
    rw [hstage]
    exact (h.limited hpatient).1 job' hjob'

/-- A caller who gives up is served, and nobody else is touched. -/
theorem IsServing.giveUp (h : s.IsServing) (i : Nat) : (s.play (.giveUp i)).IsServing := by
  have hstages : ∀ caller ∈ (s.play (.giveUp i)).callers,
      caller ∈ s.callers ∨ ∃ result, caller.stage = .served result := by
    intro caller hmem
    obtain ⟨j, hj⟩ := List.getElem?_of_mem hmem
    simp only [play, List.getElem?_modify] at hj
    obtain ⟨other, hother, hcaller⟩ := Option.map_eq_some_iff.1 hj
    split at hcaller
    · subst hcaller
      refine Or.inr ?_
      unfold Caller.giveUp
      split
      · exact ⟨_, ‹_›⟩
      · exact ⟨_, rfl⟩
    · subst hcaller
      exact Or.inl (List.mem_of_getElem? hother)
  refine ⟨h.deliveries, h.balanced, fun caller hmem id hid => ?_, fun hpatient =>
    ⟨(h.limited hpatient).1, fun caller hmem hasking => ?_⟩⟩
  · rcases hstages caller hmem with hold | ⟨result, hserved⟩
    · exact h.awaited caller hold id hid
    · cases hserved.symm.trans hid
  · rcases hstages caller hmem with hold | ⟨result, hserved⟩
    · exact (h.limited hpatient).2 caller hold hasking
    · cases hserved.symm.trans hasking

/-- Where tries are made without end, no write is in flight. -/
theorem IsServing.not_isPatient (h : s.IsServing) :
    ∀ job ∈ s.cache.jobs, job.stage.inFlight → ¬ s.cache.backoff.IsPatient := by
  intro job hjob hf hpatient
  rw [(h.limited hpatient).1 job hjob] at hf
  cases hf

/-- What leaves less to the writes leaves less to the session. -/
theorem effort_lt_of_cache {c : Cache} (hlt : c.work < s.cache.work)
    (hbackoff : c.backoff = s.cache.backoff) :
    Session.effort { s with cache := c } < s.effort := by
  simp only [effort, stepLimit, hbackoff]
  omega

theorem effort_called_lt {i : Nat} {caller : Caller} (there : s.callers[i]? = some caller)
    (hlt : (caller.step s.cache).1.work + (caller.step s.cache).2.stage.work s.cache.stepLimit <
      s.cache.work + caller.stage.work s.cache.stepLimit) :
    effort { s with
      cache := (caller.step s.cache).1
      callers := s.callers.set i (caller.step s.cache).2 } < s.effort := by
  have hsum := sum_map_modify (fun _ => (caller.step s.cache).2)
    (fun caller => caller.stage.work s.cache.stepLimit) there
  have hsteps : (caller.step s.cache).1.stepLimit = s.cache.stepLimit := by
    rw [stepLimit, stepLimit, (Caller.operation_step caller s.cache).sameWorld.backoff]
  simp only [effort, hsteps, List.set_eq_modify]
  omega

/-- A calm move leaves less to do, or changes nothing. -/
theorem IsServing.effort_play_lt (h : s.IsServing) (hm : m.isCalm) :
    (s.play m).effort < s.effort ∨ s.play m = s := by
  have hserves := serves_play h.deliveries hm
  generalize s.play m = t at hserves ⊢
  cases hserves with
  | still => exact Or.inr rfl
  | called i caller there =>
    refine (caller.work_step_lt s.cache).imp (effort_called_lt there) fun hsame => ?_
    obtain ⟨hlt, rfl⟩ := List.getElem?_eq_some_iff.1 there
    rw [hsame.1, List.set_getElem_self]
  | advanced id =>
    refine (work_advance_lt_or h.not_isPatient id).imp (fun hlt => ?_) fun hsame => ?_
    · exact effort_lt_of_cache hlt (sameWorld_advance s.cache id).backoff
    · rw [hsame]
  | noted id =>
    refine (work_settle_lt_or s.cache id).imp (fun hlt => ?_) fun hsame => ?_
    · exact effort_lt_of_cache hlt (sameWorld_settle s.cache id).backoff
    · rw [hsame]

/-- Until everybody is served and all ends are noted, some move of a round leaves less to do. -/
theorem IsServing.exists_move (h : s.IsServing) (hq : ¬ s.Quiescent) :
    ∃ m ∈ s.roundMoves, (s.play m).effort < s.effort := by
  by_cases hcache : s.cache.Quiescent
  · obtain ⟨caller, hmem, hopen⟩ : ∃ caller ∈ s.callers, caller.result? = none := by
      simpa [Quiescent, hcache, h.deliveries] using hq
    obtain ⟨i, hi⟩ := List.getElem?_of_mem hmem
    have hlt := (List.getElem?_eq_some_iff.1 hi).1
    refine ⟨.call i, by simp [roundMoves, hlt], ?_⟩
    simp only [play, hi]
    refine effort_called_lt hi ((caller.work_step_lt s.cache).resolve_right ?_)
    rintro ⟨hsame, hunnoted⟩
    unfold Caller.result? at hopen
    cases hs : caller.stage with
    | asking =>
      have hnot := caller.step_ne_asking s.cache
      rw [hsame] at hnot
      exact absurd hs hnot
    | waiting id =>
      have hid := h.awaited caller hmem id hs
      have hnoted := (hcache s.cache.jobs[id] (List.getElem_mem hid)).2
      have hsettled := hunnoted id hs
      simp [isSettled, List.getElem?_eq_getElem hid, hnoted] at hsettled
    | served result => simp [hs] at hopen
  · obtain ⟨id, hid, hlt⟩ := exists_work_lt h.not_isPatient hcache
    rcases hlt with hlt | hlt
    · exact ⟨.write id, by simp [roundMoves, hid],
        effort_lt_of_cache hlt (sameWorld_advance s.cache id).backoff⟩
    · exact ⟨.settle id, by simp [roundMoves, hid],
        effort_lt_of_cache hlt (sameWorld_settle s.cache id).backoff⟩

theorem comesToRest_isServing : ComesToRest IsServing (fun m => m.isCalm) effort where
  keeps h hm := h.serves (serves_play h.deliveries hm)
  less h hm := h.effort_play_lt hm
  round _ _ hm := isCalm_of_mem_roundMoves hm
  goes_on h hq := h.exists_move hq

/-- No session of callers has more to do than the rounds that it is given. -/
theorem IsServing.effort_le_roundLimit (h : s.IsServing) : s.effort ≤ s.roundLimit := by
  have hjobs := s.cache.work_le
  have hcallers := List.sum_le_card_nsmul
    (s.callers.map fun caller => caller.stage.work s.cache.stepLimit) (s.cache.stepLimit + 6)
    fun n hn => by
      obtain ⟨caller, -, rfl⟩ := List.mem_map.1 hn
      exact caller.stage.work_le _
  simp only [List.length_map, nsmul_eq_mul, Nat.cast_id] at hcallers
  simp only [effort, roundLimit, h.deliveries, List.length_nil, Nat.add_zero]
  rw [Nat.add_mul]
  omega

/-- Finishing serves everybody. -/
theorem IsServing.quiescent_finish (h : s.IsServing) : s.finish.Quiescent :=
  comesToRest_isServing.quiescent_finish h (s.leadsCalmly_turns s.line s.turnLimit)
    h.effort_le_roundLimit

theorem leadsCalmly_finish (s : Session) : s.LeadsCalmly s.finish :=
  (s.leadsCalmly_turns s.line s.turnLimit).trans (leadsCalmly_rounds _ _)

theorem IsServing.callAll (h : s.IsServing) : s.callAll.IsServing := by
  refine comesToRest_isServing.playAll h fun m hm => ?_
  obtain ⟨i, -, rfl⟩ := List.mem_map.1 hm
  rfl

/-- However far callers have come who are on their own, they can all be served. -/
theorem IsServing.exists_quiescent (h : s.IsServing) (hcalm : ∀ m ∈ moves, m.isCalm) :
    ∃ more : List Move, (∀ m ∈ more, m.isCalm) ∧ ((s.playAll moves).playAll more).Quiescent := by
  have hserving := comesToRest_isServing.playAll h hcalm
  obtain ⟨more, hmore, hfinish⟩ := (s.playAll moves).leadsCalmly_finish
  exact ⟨more, hmore, hfinish ▸ hserving.quiescent_finish⟩

end Session
end SchemaArtifacts
