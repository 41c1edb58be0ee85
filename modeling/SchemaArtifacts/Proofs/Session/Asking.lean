import SchemaArtifacts.Proofs.Cache.World
import SchemaArtifacts.Proofs.Session.Rounds

/-!
# Asking

Callers who ask are refused, each for its own address, or are led to the write that stands for their
path; the first who asks for a path without one begins it. Callers who start together ask one after
another, before anything else happens.

## Main definitions

* `Cache.target` — the path that a text for an address is stored at, or why there is none
* `Caller.stepAll` — callers take a step, one after another
* `Session.answer?` — what a caller was served with

## Main results

* `Caller.step_of_target` — what a caller who asks is led to
* `Session.callAll_eq` — each caller takes a step, in order
* `Session.leadsCalmly_callAll` — finishing goes on from there
-/

namespace SchemaArtifacts

open Cache Relation

namespace Cache

variable {c : Cache} {a : Address} {path : AbsolutePath}

/-- The path that a text for an address is stored at, or why there is none. -/
def target (c : Cache) (a : Address) : Except Failure AbsolutePath :=
  if a.isLocal then .error (.localFile a.url) else (c.locate a.url).mapError .name

theorem run_request_of_target (c : Cache) (a : Address) (content : String) :
    (request a content).run c =
      match c.target a with
      | .error e => (.error e, c)
      | .ok path => (.ok (c.seek path content).2, (c.seek path content).1) := by
  rw [run_request, target]
  split
  · rfl
  · cases c.locate a.url with
    | error e => rfl
    | ok path =>
      simp only [Except.mapError, seek]
      cases c.pendingJob? path <;> rfl

theorem callers_cons (c : Cache) (a : Address) (content : String)
    (stores : List (Address × String)) : (c.callers ((a, content) :: stores)).callers =
      { address := a, content } :: (c.callers stores).callers := rfl

end Cache

/-! ## Callers -/

namespace Caller

variable {caller : Caller} {c : Cache} {id : Nat}

/-- A caller who asks is refused, or led to a write that stands for the path. -/
theorem step_of_target (h : caller.stage = .asking) :
    caller.step c =
      match c.target caller.address with
      | .error e => (c, { caller with stage := .served (.error e) })
      | .ok path => ((c.seek path caller.content).1,
          { caller with
            stage := join (c.seek path caller.content).1 (c.seek path caller.content).2 }) := by
  simp only [step, h, run_request_of_target]
  cases c.target caller.address <;> rfl

theorem step_of_waiting (h : caller.stage = .waiting id) :
    caller.step c = (c, { caller with stage := wait c id }) := by
  simp only [step, h]

theorem address_step (caller : Caller) (c : Cache) :
    (caller.step c).2.address = caller.address ∧ (caller.step c).2.content = caller.content := by
  unfold step
  split <;> exact ⟨rfl, rfl⟩

theorem step_ne_asking (caller : Caller) (c : Cache) : (caller.step c).2.stage ≠ .asking := by
  cases hs : caller.stage with
  | asking =>
    rw [step_of_target hs]
    split
    · simp
    · unfold join
      split <;> simp
  | waiting id =>
    rw [step_of_waiting hs]
    unfold wait
    split <;> simp
  | served result =>
    rw [step_of_served hs, hs]
    simp

theorem cache_step_of_ne_asking (h : caller.stage ≠ .asking) : (caller.step c).1 = c := by
  cases hs : caller.stage with
  | asking => exact absurd hs h
  | waiting id => exact cache_step_of_waiting hs
  | served result => rw [step_of_served hs]

/-- Callers take a step, one after another. -/
def stepAll (c : Cache) : List Caller → Cache × List Caller
  | [] => (c, [])
  | caller :: rest =>
    ((stepAll (caller.step c).1 rest).1, (caller.step c).2 :: (stepAll (caller.step c).1 rest).2)

theorem operations_stepAll (c : Cache) (callers : List Caller) :
    ReflTransGen Operation c (stepAll c callers).1 := by
  induction callers generalizing c with
  | nil => exact .refl
  | cons caller rest ih => exact .head (operation_step caller c) (ih (caller.step c).1)

theorem sameWorld_stepAll (c : Cache) (callers : List Caller) :
    SameWorld c (stepAll c callers).1 := by
  induction callers generalizing c with
  | nil => exact .refl c
  | cons caller rest ih =>
    exact (operation_step caller c).sameWorld.trans (ih (caller.step c).1)

end Caller

namespace Session

variable {s : Session} {c : Cache} {stores : List (Address × String)}

/-- What a caller was served with. -/
def answer? (s : Session) (i : Nat) : Option (Except Failure AbsolutePath) :=
  s.callers[i]?.bind Caller.result?

/-- When everybody was served, these are the results. -/
theorem results_eq {results : List (Except Failure AbsolutePath)}
    (hlength : s.callers.length = results.length)
    (h : ∀ (i : Nat) result, results[i]? = some result → s.answer? i = some result) :
    s.results = results := by
  refine List.ext_getElem? fun i => ?_
  cases hi : results[i]? with
  | none =>
    rw [List.getElem?_eq_none_iff, ← hlength] at hi
    simp [Session.results, hi]
  | some result =>
    obtain ⟨caller, hcaller, hresult⟩ := Option.bind_eq_some_iff.1 (h i result hi)
    simp [Session.results, hcaller, hresult]

theorem length_callers_playAll (s : Session) (moves : List Move) :
    (s.playAll moves).callers.length = s.callers.length := by
  induction moves generalizing s with
  | nil => rfl
  | cons m moves ih => rw [playAll_cons, ih, length_callers_play]

/-- Those who are behind others in the list take their steps. -/
theorem playAll_calls (before rest : List Caller) (h : s.callers = before ++ rest) :
    s.playAll ((List.range' before.length rest.length).map .call) =
      { s with
        cache := (Caller.stepAll s.cache rest).1
        callers := before ++ (Caller.stepAll s.cache rest).2 } := by
  induction rest generalizing s before with
  | nil =>
    simp only [List.length_nil, List.range'_zero, List.map_nil, playAll_nil, Caller.stepAll,
      List.append_nil] at h ⊢
    rw [← h]
  | cons caller rest ih =>
    have hcaller : s.callers[before.length]? = some caller := by simp [h]
    have hset : (s.play (.call before.length)).callers =
        (before ++ [(caller.step s.cache).2]) ++ rest := by
      simp [play, h]
    have hcache : (s.play (.call before.length)).cache = (caller.step s.cache).1 := by
      simp only [play, hcaller]
    have hrest := ih (before ++ [(caller.step s.cache).2]) hset
    rw [List.length_append, List.length_singleton, hcache] at hrest
    rw [List.length_cons, List.range'_succ, List.map_cons, playAll_cons, hrest]
    simp [play, hcaller, Caller.stepAll]

/-- Each caller takes a step, in order. -/
theorem callAll_eq (s : Session) : s.callAll =
    { s with
      cache := (Caller.stepAll s.cache s.callers).1
      callers := (Caller.stepAll s.cache s.callers).2 } := by
  have h := playAll_calls [] s.callers (s := s) rfl
  rwa [List.length_nil, ← List.range_eq_range', List.nil_append] at h

/-- The turns of callers at the front of the line are taken first. -/
theorem exists_turns_eq (s : Session) (is : List Nat) (rest : List Place) (n : Nat) :
    ∃ places, s.turns (is.map (fun i => { turn := .caller i }) ++ rest) (is.length + n) =
      (s.playAll (is.map .call)).turns places n := by
  induction is generalizing s rest with
  | nil => exact ⟨rest, by simp⟩
  | cons i is ih =>
    obtain ⟨places, hplaces⟩ := ih (s.play (.call i))
      (rest ++ followers s (s.play (.call i)) (.caller i))
    refine ⟨places, ?_⟩
    rw [List.map_cons, List.map_cons, playAll_cons, ← hplaces, List.length_cons, Nat.add_right_comm,
      List.cons_append, turns]
    simp only [pass, movesOf, playAll_cons, playAll_nil, List.append_assoc]

theorem line_callers (quiet : c.Quiescent) (stores : List (Address × String)) :
    (c.callers stores).line =
      (List.range stores.length).map fun i => { turn := .caller i } := by
  have hwrites : (List.range c.jobs.length).flatMap (c.callers stores).placesOfWrite = [] := by
    rw [List.flatMap_eq_nil_iff]
    intro id hid
    have hlt := List.mem_range.1 hid
    obtain ⟨hended, hsettled⟩ := quiet c.jobs[id] (List.getElem_mem hlt)
    have hj : (c.callers stores).cache.jobs[id]? = some c.jobs[id] := List.getElem?_eq_getElem hlt
    rw [placesOfWrite, hj]
    cases hs : c.jobs[id].stage with
    | ended outcome => simp [hs, hsettled]
    | _ => simp [hs, Stage.outcome?] at hended
  have hall : ((List.range (c.callers stores).callers.length).filter fun i =>
      (c.callers stores).callers[i]?.any fun caller =>
        caller.result?.isNone && caller.awaited?.isNone) = List.range stores.length := by
    rw [List.filter_eq_self.2]
    · simp [Cache.callers]
    · intro i hi
      have hlt : i < stores.length := by simpa [Cache.callers] using List.mem_range.1 hi
      simp [Cache.callers, hlt, Caller.result?, Caller.awaited?]
  rw [line, hall]
  simpa [Cache.callers] using hwrites

/-- Finishing lets everybody ask first, and then goes on calmly. -/
theorem leadsCalmly_callAll (quiet : c.Quiescent) (stores : List (Address × String)) :
    (c.callers stores).callAll.LeadsCalmly (c.callers stores).finish := by
  have hlimit : ∃ n, (c.callers stores).turnLimit = stores.length + n := by
    refine Nat.exists_eq_add_of_le ?_
    have hcallers : (c.callers stores).callers.length = stores.length := by simp [Cache.callers]
    rw [turnLimit, hcallers]
    exact Nat.le_trans (Nat.le_add_left _ _) (Nat.le_mul_of_pos_right _ (by omega))
  obtain ⟨n, hn⟩ := hlimit
  obtain ⟨places, hplaces⟩ := exists_turns_eq (c.callers stores) (List.range stores.length) [] n
  have hcallAll : (c.callers stores).callAll =
      (c.callers stores).playAll ((List.range stores.length).map .call) := by
    simp [callAll, Cache.callers]
  rw [List.append_nil, List.length_range, ← hn, ← line_callers quiet, ← hcallAll] at hplaces
  rw [finish, hplaces]
  exact (leadsCalmly_turns _ _ _).trans (leadsCalmly_rounds _ _)

end Session
end SchemaArtifacts
