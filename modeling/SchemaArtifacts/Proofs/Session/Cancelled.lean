import SchemaArtifacts.Proofs.Session.GivingUp
import SchemaArtifacts.Proofs.Session.OneWrite

/-!
# Giving up, and calling off

Some wait for one write. When one of them gives up, this is of no account to the write or to the others.
When the write is called off before it begins, they all learn so, and it is as if nobody had asked: the
next text for the path is written.

## Main definitions

* `Cache.waiters` — callers who wait for a write that is yet to begin
* `Cache.NothingCame` — no write has done anything

## Main results

* `Session.callAll_eq_waiters` — callers for one path wait for one write
* `Session.AwaitsOne.callOff` — what comes of calling it off
* `Cache.cancelled_apart` — who learns of giving up, and of calling off
-/

namespace SchemaArtifacts

open Cache Relation

namespace Cache

variable {c d : Cache} {path : AbsolutePath} {content : String} {id : Nat} {job : Job}
  {stores : List (Address × String)}

/-- Callers who wait for a write that is yet to begin. -/
def waiters (c : Cache) (path : AbsolutePath) (content : String) (stores : List (Address × String)) :
    Session :=
  { cache := c.open_ path content
    callers := stores.map fun (address, content) =>
      { address, content, stage := .waiting c.jobs.length } }

/-- No write has done anything. -/
structure NothingCame (c d : Cache) : Prop where
  disk : d.disk = c.disk
  count : d.count = c.count
  written : d.written = c.written
  attempts : d.attempts = c.attempts

theorem Balanced.pendingJob?_eq_none (h : c.Balanced) (quiet : c.Quiescent) (hnew : path ∉ c.written) :
    c.pendingJob? path = none := by
  rw [pendingJob?_eq_none_iff, h.mem_pending_iff_of_quiescent quiet]
  exact hnew

theorem isAlone_open_ (quiet : c.Quiescent) (path : AbsolutePath) (content : String) :
    (c.open_ path content).IsAlone c.jobs.length { path, content } where
  there := getElem?_jobs_open_.2 (Or.inr ⟨rfl, rfl⟩)
  unnoted := rfl
  others other job' hne hj' := by
    have hold := (getElem?_jobs_open_.1 hj').resolve_right fun h => hne h.1
    have hmem := List.mem_of_getElem? hold
    exact ⟨inFlight_of_quiescent quiet job' hmem, (quiet job' hmem).2⟩

/-- Those who ask for a path while its write is on its way wait for it. -/
theorem stepAll_callers (hpending : d.pendingJob? path = some id) (hended : d.hasEnded id = false)
    (hstores : ∀ store ∈ stores, d.target store.1 = .ok path) :
    Caller.stepAll d (c.callers stores).callers =
      (d, stores.map fun (address, content) => { address, content, stage := .waiting id }) := by
  induction stores with
  | nil => rfl
  | cons store stores ih =>
    obtain ⟨htarget, hrest⟩ := List.forall_mem_cons.1 hstores
    obtain ⟨a, content⟩ := store
    let caller : Caller := { address := a, content }
    have hstep : caller.step d = (d, { caller with stage := .waiting id }) := by
      rw [Caller.step_of_target rfl, show d.target caller.address = .ok path from htarget]
      simp only [seek, hpending, Caller.join, hended, Bool.false_eq_true, if_false]
    rw [callers_cons, Caller.stepAll, hstep, ih hrest]
    rfl

end Cache

namespace Session

variable {c b : Cache} {path : AbsolutePath} {content : String} {id : Nat} {job : Job}
  {s : Session} {a : Address} {stores others : List (Address × String)} {moves : List Move}

/-- Callers who ask for one path wait for the write that the first of them has begun. -/
theorem callAll_eq_waiters (hnone : c.pendingJob? path = none) (ha : c.target a = .ok path)
    (hothers : ∀ store ∈ others, c.target store.1 = .ok path) :
    (c.callers ((a, content) :: others)).callAll = c.waiters path content ((a, content) :: others) := by
  let caller : Caller := { address := a, content }
  have hended : (c.open_ path content).hasEnded c.jobs.length = false := by
    rw [Delivery.hasEnded_iff (getElem?_jobs_open_.2 (Or.inr ⟨rfl, rfl⟩))]
    rfl
  have hstep : caller.step c =
      (c.open_ path content, { caller with stage := .waiting c.jobs.length }) := by
    rw [Caller.step_of_target rfl, show c.target caller.address = .ok path from ha]
    simp only [seek, hnone, Caller.join, caller, hended, Bool.false_eq_true, if_false]
  have hpending : (c.open_ path content).pendingJob? path = some c.jobs.length := by
    simp [pendingJob?, open_]
  have hrest := stepAll_callers (c := c) hpending hended hothers
  have hall : Caller.stepAll c (c.callers ((a, content) :: others)).callers =
      ((c.waiters path content ((a, content) :: others)).cache,
        (c.waiters path content ((a, content) :: others)).callers) := by
    rw [callers_cons, Caller.stepAll, hstep, hrest]
    rfl
  have hcache : (c.callers ((a, content) :: others)).cache = c := rfl
  rw [callAll_eq, hcache, hall]
  rfl

theorem awaitsOne_waiters (c : Cache) (path : AbsolutePath) (content : String)
    (stores : List (Address × String)) :
    AwaitsOne (c.open_ path content) c.jobs.length (c.waiters path content stores) where
  deliveries := rfl
  cache := .ran 0
  callers caller hcaller := by
    obtain ⟨store, -, rfl⟩ := List.mem_map.1 hcaller
    exact Or.inl rfl

/-! ## Calling off -/

/-- Calling off a write that has not begun ends it. -/
theorem cancelWrite_open_ (c : Cache) (path : AbsolutePath) (content : String) :
    (c.open_ path content).cancelWrite c.jobs.length =
      (c.open_ path content).setStage c.jobs.length (.ended (.error .cancelled)) := by
  have hj : (c.open_ path content).jobs[c.jobs.length]? = some { path, content } :=
    getElem?_jobs_open_.2 (Or.inr ⟨rfl, rfl⟩)
  simp only [cancelWrite, hj]

theorem isAlone_cancelWrite (quiet : c.Quiescent) (path : AbsolutePath) (content : String) :
    ((c.open_ path content).cancelWrite c.jobs.length).IsAlone c.jobs.length
      { path, content, stage := .ended (.error .cancelled) } := by
  have halone := isAlone_open_ quiet path content
  rw [cancelWrite_open_]
  refine ⟨getElem?_jobs_setStage halone.there _, rfl, fun other job' hne hj' => ?_⟩
  rcases (getElem?_modify_jobs halone.there rfl).1 hj' with ⟨-, hj'⟩ | ⟨rfl, -⟩
  · exact halone.others other job' hne hj'
  · exact absurd rfl hne

/-- What has become of a cache when a write was called off, before its end is noted and after. -/
theorem runsAlone_cancelWrite {d : Cache} (quiet : c.Quiescent)
    (h : ((c.open_ path content).cancelWrite c.jobs.length).RunsAlone c.jobs.length d) :
    c.NothingCame d ∧ d.outcome c.jobs.length = .error .cancelled := by
  have halone := isAlone_cancelWrite quiet path content
  have hrun := run_of_ended halone.there rfl
  have hnothing : c.NothingCame ((c.open_ path content).cancelWrite c.jobs.length) := by
    rw [cancelWrite_open_]
    exact ⟨rfl, rfl, rfl, rfl⟩
  have houtcome := outcome_of_stage halone.there rfl
  cases h with
  | ran steps =>
    rw [hrun]
    exact ⟨hnothing, houtcome⟩
  | noted steps ended =>
    rw [hrun] at ended ⊢
    have hkept := kept_settle ((c.open_ path content).cancelWrite c.jobs.length) c.jobs.length
    refine ⟨⟨(disk_settle _ _).trans hnothing.disk, hkept.1.trans hnothing.count, ?_,
      hkept.2.trans hnothing.attempts⟩, ?_⟩
    · rw [← hnothing.written]
      simp [settle, halone.there, Stage.outcome?]
    · rw [(outcome_of_operation (.settle _) ended).2, houtcome]
      rfl

/-- When the end of a write that was called off is noted, no write stands for its path. -/
theorem pendingJob?_settle_cancelWrite (quiet : c.Quiescent) (path : AbsolutePath) (content : String) :
    (((c.open_ path content).cancelWrite c.jobs.length).settle c.jobs.length).pendingJob? path =
      none := by
  have halone := isAlone_cancelWrite quiet path content
  rw [pendingJob?_eq_none_iff]
  simp [settle, halone.there, Stage.outcome?]

/-- What comes of calling a write off before it begins, while others wait for it: all of them learn so,
and nothing else has happened; when nothing is on its way any more, no write stands for the path. -/
theorem AwaitsOne.callOff (quiet : c.Quiescent) (hc : c.Balanced)
    (hnone : c.pendingJob? path = none)
    (h : AwaitsOne (c.open_ path content) c.jobs.length s)
    (hj : s.cache.jobs[c.jobs.length]? = some job) (hready : job.stage = .ready 0) {after : List Move}
    (hcalm : ∀ m ∈ after, m.isCalm) :
    let off := (s.play (.callOff c.jobs.length)).playAll after
    c.NothingCame off.cache ∧
      (∀ i result, off.answer? i = some result → result = .error .cancelled) ∧
      off.finish.Quiescent ∧
      (off.Quiescent → (∀ i < s.callers.length, off.answer? i = some (.error .cancelled)) ∧
        off.cache.BeginsAnew path) := by
  intro off
  let called := (c.open_ path content).cancelWrite c.jobs.length
  have hopen := isAlone_open_ quiet path content
  have halone := isAlone_cancelWrite quiet path content
  have hcache : s.cache = c.open_ path content := h.cache.eq_of_ready hopen rfl hj hready
  have hstart : AwaitsOne called c.jobs.length (s.play (.callOff c.jobs.length)) := by
    refine ⟨h.deliveries, ?_, fun caller hcaller => ?_⟩
    · simp only [play, hcache]
      exact .ran 0
    · refine Or.inl ((h.callers caller hcaller).resolve_right fun hserved => ?_)
      rw [hcache, Delivery.hasEnded_iff hopen.there] at hserved
      cases hserved.1
  have hoff : AwaitsOne called c.jobs.length off := hstart.playAll halone hcalm
  obtain ⟨hnothing, houtcome⟩ := runsAlone_cancelWrite quiet hoff.cache
  have hbalanced : called.Balanced :=
    (books_cancelWrite _ _).balanced (hc.open_ content hnone)
  have hserving := hoff.isServing halone hbalanced fun _ => rfl
  have hlength : off.callers.length = s.callers.length := by
    rw [length_callers_playAll, length_callers_play]
  refine ⟨hnothing, fun i result hresult => ?_, hserving.quiescent_finish,
    fun hquiet => ⟨fun i hi => ?_, ?_⟩⟩
  · rw [hoff.eq_of_answer? hresult, houtcome]
  · rw [← houtcome]
    exact hoff.answer?_of_quiescent hquiet (by rwa [hlength])
  · obtain ⟨steps, -, hsettled⟩ := hoff.cache.exists_of_quiescent halone hquiet.1
    rw [run_of_ended halone.there rfl] at hsettled
    refine hserving.balanced.beginsAnew ?_
    rw [hsettled]
    exact pendingJob?_settle_cancelWrite quiet path content

end Session

namespace Cache

variable {c : Cache} {a : Address} {path : AbsolutePath} {content : String}

theorem callAll_replicate (hnone : c.pendingJob? path = none) (ha : c.target a = .ok path)
    (content : String) (n : Nat) :
    (c.callers (List.replicate (n + 1) (a, content))).callAll =
      c.waiters path content (List.replicate (n + 1) (a, content)) := by
  rw [List.replicate_succ]
  refine Session.callAll_eq_waiters hnone ha fun store hmem => ?_
  rw [List.eq_of_mem_replicate hmem]
  exact ha

/-- All who wait are served with the one end of their write; and when the first of them gives up, the
others and the cache come to the same. -/
theorem exists_storeCancelled (hc : c.Balanced) (quiet : c.Quiescent)
    (hnone : c.pendingJob? path = none) (ha : c.target a = .ok path)
    (hlimited : ¬ c.backoff.IsPatient) (content : String) (n : Nat) :
    ∃ d result, c.storeAll (List.replicate (n + 1) (a, content)) =
        (d, List.replicate (n + 1) result) ∧
      c.storeCancelled a content (n + 1) = (d, .error .cancelled :: List.replicate n result) := by
  let stores := List.replicate (n + 1) (a, content)
  let s := c.waiters path content stores
  have hcall : (c.callers stores).callAll = s := callAll_replicate hnone ha content n
  have halone := isAlone_open_ quiet path content
  have hawaits := Session.awaitsOne_waiters c path content stores
  have hlength : s.callers.length = n + 1 := by simp [s, waiters, stores]
  refine ⟨(c.open_ path content).drain c.jobs.length,
    ((c.open_ path content).drain c.jobs.length).outcome c.jobs.length, ?_, ?_⟩
  · obtain ⟨moves, hcalm, hfinish⟩ := Session.leadsCalmly_callAll quiet stores
    have hquiet := (Session.isServing_callers hc hlimited stores).quiescent_finish
    rw [hcall] at hfinish
    rw [← hfinish] at hquiet
    have hdone := hawaits.playAll halone hcalm
    have hdrain := hdone.cache.eq_drain halone hlimited hquiet.1 rfl
    have hresults := hdone.results_of_quiescent hquiet
    rw [hdrain, Session.length_callers_playAll, hlength] at hresults
    show ((c.callers stores).finish.cache, (c.callers stores).finish.results) = _
    rw [← hfinish, hdrain, hresults]
  · have hfirst : s.callers[0]? =
        some { address := a, content, stage := .waiting c.jobs.length } := by
      simp [s, waiters, stores, List.replicate_succ]
    obtain ⟨moves, hcalm, hfinish⟩ := Session.leadsCalmly_finish (s.play (.giveUp 0))
    have hserving := hawaits.isServing halone (hc.open_ content hnone) fun hpatient =>
      absurd hpatient hlimited
    have hquiet := (hserving.giveUp 0).quiescent_finish
    have hbut := (Session.butFor_giveUp hfirst rfl).playAll moves
    have hothers := hawaits.playAll halone hcalm
    rw [hfinish] at hbut
    have hdrain := hothers.cache.eq_drain halone hlimited (hbut.cache ▸ hquiet.1) rfl
    have hlength' : (s.play (.giveUp 0)).finish.callers.length = n + 1 := by
      rw [← hfinish, Session.length_callers_playAll, Session.length_callers_play, hlength]
    have hresults : (s.play (.giveUp 0)).finish.results = .error .cancelled ::
        List.replicate n (((c.open_ path content).drain c.jobs.length).outcome c.jobs.length) := by
      refine Session.results_eq (by simp [hlength']) fun i result hi => ?_
      cases i with
      | zero =>
        cases hi
        exact hbut.answer?
      | succ i =>
        rw [List.getElem?_cons_succ, List.getElem?_replicate] at hi
        split at hi
        · cases hi
          have hlt : i + 1 < (s.play (.giveUp 0)).finish.callers.length := by omega
          obtain ⟨result, hresult⟩ := hquiet.exists_answer? hlt
          have hsame := hresult
          rw [hbut.answer?_of_ne (Nat.succ_ne_zero i)] at hsame
          rw [hresult, hothers.eq_of_answer? hsame, hdrain]
        · cases hi
    show (((c.callers stores).callAll.play (.giveUp 0)).finish.cache,
      ((c.callers stores).callAll.play (.giveUp 0)).finish.results) = _
    rw [hcall, hresults, hbut.cache, hdrain]

/-- When the write that some wait for is called off, they all learn so. -/
theorem storeCalledOff_of_none (hc : c.Balanced) (quiet : c.Quiescent)
    (hnone : c.pendingJob? path = none) (ha : c.target a = .ok path) (content : String) (n : Nat) :
    let off := c.storeCalledOff a content (n + 1)
    c.NothingCame off.1 ∧ off.1.BeginsAnew path ∧
      off.2 = List.replicate (n + 1) (.error .cancelled) := by
  let stores := List.replicate (n + 1) (a, content)
  let s := c.waiters path content stores
  have hcall : (c.callers stores).callAll = s := callAll_replicate hnone ha content n
  have hlength : s.callers.length = n + 1 := by simp [s, waiters, stores]
  have hfirst : s.callers[0]?.map Caller.stage = some (.waiting c.jobs.length) := by
    simp [s, waiters, stores, List.replicate_succ]
  have hoff : c.storeCalledOff a content (n + 1) =
      ((s.play (.callOff c.jobs.length)).finish.cache,
        (s.play (.callOff c.jobs.length)).finish.results) := by
    unfold storeCalledOff
    rw [hcall]
    dsimp only
    rw [hfirst]
  have hawaits := Session.awaitsOne_waiters c path content stores
  have halone := isAlone_open_ quiet path content
  obtain ⟨moves, hcalm, hfinish⟩ := Session.leadsCalmly_finish (s.play (.callOff c.jobs.length))
  have hquiet := (hawaits.callOff quiet hc hnone halone.there rfl (List.forall_mem_nil _)).2.2.1
  obtain ⟨hnothing, -, -, hend⟩ := hawaits.callOff quiet hc hnone halone.there rfl hcalm
  rw [hfinish] at hnothing hend
  obtain ⟨hanswers, hanew⟩ := hend hquiet
  rw [hoff]
  refine ⟨hnothing, hanew, Session.results_eq ?_ fun i result hi => ?_⟩
  · rw [← hfinish, Session.length_callers_playAll, Session.length_callers_play, hlength,
      List.length_replicate]
  · rw [List.getElem?_replicate] at hi
    split at hi
    · cases hi
      have hlt : i < s.callers.length := by omega
      exact hanswers i hlt
    · cases hi

/-- Some wait for the one write for a path that was not written. Whenever one of them gives up, the same
moves lead to the same cache and to the same answers for the others, and only the one who gives up is
told so. When the write is called off before it begins, all of them are told so, the disk, the count and
the paths that were written are as before, and the next text for the path is written. So it is, too, when
they are waited for. -/
theorem cancelled_apart (reached : c.IsReached) (quiet : c.Quiescent) (ha : c.target a = .ok path)
    (hnew : path ∉ c.written) (content : String) (others : List (Address × String))
    (hothers : ∀ store ∈ others, c.target store.1 = .ok path) :
    let id := c.jobs.length
    let asked := (c.callers ((a, content) :: others)).callAll
    asked = c.waiters path content ((a, content) :: others) ∧
    (∀ (before after : List Move) (i : Nat) (caller : Caller),
      (asked.playAll before).callers[i]? = some caller → caller.stage = .waiting id →
      let stayed := (asked.playAll before).playAll after
      let left := ((asked.playAll before).play (.giveUp i)).playAll after
      left.cache = stayed.cache ∧ (∀ j, j ≠ i → left.answer? j = stayed.answer? j) ∧
        left.answer? i = some (.error .cancelled)) ∧
    (∀ (before after : List Move) (job : Job), (∀ m ∈ before, m.isCalm) → (∀ m ∈ after, m.isCalm) →
      (asked.playAll before).cache.jobs[id]? = some job → job.stage = .ready 0 →
      let off := ((asked.playAll before).play (.callOff id)).playAll after
      c.NothingCame off.cache ∧
        (∀ i result, off.answer? i = some result → result = .error .cancelled) ∧
        off.finish.Quiescent ∧
        (off.Quiescent → (∀ i ≤ others.length, off.answer? i = some (.error .cancelled)) ∧
          off.cache.BeginsAnew path)) ∧
    ∀ n, (let off := c.storeCalledOff a content (n + 1)
        c.NothingCame off.1 ∧ off.1.BeginsAnew path ∧
          off.2 = List.replicate (n + 1) (.error .cancelled)) ∧
      (¬ c.backoff.IsPatient → ∃ d result,
        c.storeAll (List.replicate (n + 1) (a, content)) = (d, List.replicate (n + 1) result) ∧
        c.storeCancelled a content (n + 1) = (d, .error .cancelled :: List.replicate n result)) := by
  intro id asked
  have hc := reached.balanced
  have hnone := hc.pendingJob?_eq_none quiet hnew
  have hasked : asked = c.waiters path content ((a, content) :: others) :=
    Session.callAll_eq_waiters hnone ha hothers
  refine ⟨hasked, fun before after i caller hcaller hwaits => ?_,
    fun before after job hbefore hafter hj hready => ?_, fun n => ⟨?_, fun hlimited => ?_⟩⟩
  · have hbut := (Session.butFor_giveUp hcaller hwaits).playAll after
    exact ⟨hbut.cache, fun j hj => hbut.answer?_of_ne hj, hbut.answer?⟩
  · have hawaits : Session.AwaitsOne (c.open_ path content) id (asked.playAll before) := by
      rw [hasked]
      exact (Session.awaitsOne_waiters c path content _).playAll (isAlone_open_ quiet path content)
        hbefore
    have hlength : (asked.playAll before).callers.length = others.length + 1 := by
      rw [Session.length_callers_playAll, hasked]
      simp [waiters]
    obtain ⟨hnothing, hanswers, hfinish, hend⟩ := hawaits.callOff quiet hc hnone hj hready hafter
    refine ⟨hnothing, hanswers, hfinish, fun hquiet => ⟨fun i hi => ?_, (hend hquiet).2⟩⟩
    exact (hend hquiet).1 i (by omega)
  · exact storeCalledOff_of_none hc quiet hnone ha content n
  · exact exists_storeCancelled hc quiet hnone ha hlimited content n

/-- Two wait for a write, for which they ask under different spellings; its first try fails in passing.
The first of them gives up, and the second is served. Or the write is called off, and nothing has
happened. -/
theorem cancelled_apart_two : ∃ (c : Cache) (a : Address) (path : AbsolutePath)
    (others : List (Address × String)) (asked : Session),
    asked = (c.callers ((a, "x") :: others)).callAll ∧
    (let moves : List Move := List.replicate 8 (.write 0) ++ [.settle 0, .call 0, .call 1]
      let left := (asked.play (.giveUp 0)).playAll moves
      left.answer? 0 = some (.error .cancelled) ∧
        (left.answer? 1).map Except.toOption = some (some path) ∧
        left.cache.disk.content? path = some "x" ∧ left.cache.slept.length = 1) ∧
    let off := (asked.play (.callOff 0)).playAll [.settle 0, .call 0, .call 1]
    c.NothingCame off.cache ∧ off.answer? 0 = some (.error .cancelled) ∧
      off.answer? 1 = some (.error .cancelled) ∧ off.cache.BeginsAnew path := by
  let fault : Interruption := { incident := { label := "", transient := true, message := "" } }
  let c : Cache :=
    { root := { parts := ["c"] }
      faults := fun made _ moment => if made.length = 1 && moment = .opening then some fault else none
      draws := fun _ => .real (.finite false (1 / 2)) }
  let a : Address := { url := "/a", isLocal := false }
  let path : AbsolutePath := { parts := ["c", "a"] }
  let others : List (Address × String) := [({ url := "a", isLocal := false }, "y")]
  let moves : List Move := List.replicate 8 (.write 0) ++ [.settle 0, .call 0, .call 1]
  have ha : c.target a = .ok path := Act.eq_ok_of_toOption (by decide +kernel)
  have hothers : ∀ store ∈ others, c.target store.1 = .ok path := by
    refine List.forall_mem_singleton.2 (Act.eq_ok_of_toOption ?_)
    decide +kernel
  have hquiet : c.Quiescent := by simp [Quiescent, c]
  obtain ⟨hasked, hleft, hoff, -⟩ := cancelled_apart ⟨c, ⟨rfl, rfl, rfl, rfl⟩, .refl⟩
    hquiet ha (by simp [c]) "x" others hothers
  have hjob : (c.waiters path "x" ((a, "x") :: others)).cache.jobs[0]? =
      some { path, content := "x" } := (isAlone_open_ hquiet path "x").there
  have hfirst : (c.waiters path "x" ((a, "x") :: others)).callers[0]? =
      some { address := a, content := "x", stage := .waiting 0 } := rfl
  have hstayed : (((c.callers ((a, "x") :: others)).callAll.playAll moves).answer? 1).map
        Except.toOption = some (some path) ∧
      ((c.callers ((a, "x") :: others)).callAll.playAll moves).cache.disk.content? path = some "x" ∧
      ((c.callers ((a, "x") :: others)).callAll.playAll moves).cache.slept.length = 1 := by
    decide +kernel
  have hover : (((c.callers ((a, "x") :: others)).callAll.play (.callOff 0)).playAll
      [.settle 0, .call 0, .call 1]).Quiescent := by decide +kernel
  rw [← hasked] at hjob hfirst
  generalize hstart : (c.callers ((a, "x") :: others)).callAll = asked
    at hleft hoff hjob hfirst hstayed hover
  obtain ⟨hcache, hsame, hgone⟩ := hleft [] moves 0 _ hfirst rfl
  obtain ⟨hnothing, -, -, hend⟩ := hoff [] [.settle 0, .call 0, .call 1] _ (List.forall_mem_nil _)
    (by simp [Move.isCalm]) hjob rfl
  obtain ⟨hanswers, hanew⟩ := hend hover
  rw [Session.playAll_nil] at hcache hsame
  rw [← hcache, ← hsame 1 one_ne_zero] at hstayed
  exact ⟨c, a, path, others, asked, hstart.symm, ⟨hgone, hstayed⟩, hnothing,
    hanswers 0 (Nat.zero_le _), hanswers 1 (Nat.le_refl _), hanew⟩

end Cache
end SchemaArtifacts
