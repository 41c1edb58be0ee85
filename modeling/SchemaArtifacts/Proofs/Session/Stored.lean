import Mathlib.Logic.Relation
import SchemaArtifacts.Proofs.Session.Beside

/-!
# What was stored stays

Once a text was stored at a path, its file goes on to hold the text, whatever is stored elsewhere — but
for one kind of neighbour. A write has its text in a temporary file before it gives it the name of the
artifact, and that file has a name that can be asked for as well. So a write whose temporary file the
path is takes the file away as soon as it ends well.

## Main definitions

* `Cache.IsUnended` — a write is on its way, or is yet to begin
* `Caller.Stage.IsLed` — a caller waits for a write, or was served with its end
* `Session.Use`, `Session.Chore` — what the users of a cache do, and its upkeep

## Main results

* `Cache.Tends.operations` — writes that spare a path leave its files there
* `Session.isConfined_of_chores` — a cache that is used and kept stays confined
* `Session.stored_stays` — the file of a store that succeeded stays, unless its path is that of the
  temporary file of another write
-/

namespace SchemaArtifacts

open Cache Disk Relation

/-! ## Runs of operations -/

namespace Cache

variable {c c' : Cache} {id : Nat} {job : Job} {path : AbsolutePath} {x : String}
  {lost : Nat → String → Prop}

/-- A write has not ended: it is on its way, or is yet to begin. -/
def IsUnended (c : Cache) (id : Nat) : Prop :=
  ∀ job, c.jobs[id]? = some job → job.stage.inFlight

theorem isUnended_of_inFlight (hj : c.jobs[id]? = some job) (hf : job.stage.inFlight) :
    c.IsUnended id := by
  intro job' hj'
  cases hj.symm.trans hj'
  exact hf

/-- What has not ended had not ended before. -/
theorem IsUnended.of_operation (h : c'.IsUnended id) (hop : c.Operation c') : c.IsUnended id := by
  intro job hj
  obtain ⟨job', hj', hlater⟩ := hop.books.exists_later hj
  by_contra hf
  rw [Bool.not_eq_true] at hf
  have hf' := h job' hj'
  rw [hlater.stage hf, hf] at hf'
  cases hf'

theorem exists_later_of_operations (h : ReflTransGen Operation c c')
    (hj : c.jobs[id]? = some job) : ∃ job', c'.jobs[id]? = some job' ∧ job.Later job' := by
  induction h with
  | refl => exact ⟨job, hj, .refl job⟩
  | tail _ hop ih =>
    obtain ⟨job', hj', hlater⟩ := ih
    obtain ⟨job'', hj'', hlater'⟩ := hop.books.exists_later hj'
    exact ⟨job'', hj'', hlater.trans hlater'⟩

theorem isConfined_of_operations (h : ReflTransGen Operation c c') (hc : c.IsConfined) :
    c'.IsConfined ∧ c'.root = c.root := by
  induction h with
  | refl => exact ⟨hc, rfl⟩
  | tail _ hop ih => exact ⟨(ih.1.operation hop).1, hop.sameWorld.root.trans ih.2⟩

/-- As long as all writes that take steps spare a path, the files of its writes are there. -/
theorem Tends.operations (h : c.Tends lost path) (hops : ReflTransGen Operation c c')
    (hc : c.IsConfined) (hpath : c.root.IsWithin path)
    (hspares : ∀ (id : Nat) (job : Job), c'.jobs[id]? = some job → c.IsUnended id →
      job.path.Spares path) : c'.Tends lost path := by
  -- From the first operation on, since the writes that take steps later are unended now too.
  induction hops using ReflTransGen.head_induction_on with
  | refl => exact h
  | head hop hops ih =>
    have hroot := hop.sameWorld.root
    refine ih (h.operation hc hop hpath fun id job hj hf => ?_) (hc.operation hop).1
      (by rwa [hroot]) fun id job hj hopen => hspares id job hj (hopen.of_operation hop)
    obtain ⟨job', hj', hlater⟩ := exists_later_of_operations (.head hop hops) hj
    rw [← hlater.path]
    exact hspares id job' hj' (isUnended_of_inFlight hj hf)

/-- The text at a path stays where a write to the path is done, as long as no write that takes steps
has its temporary file there. -/
theorem content?_of_operations (hops : ReflTransGen Operation c c') (hc : c.IsConfined)
    (hpath : c.root.IsWithin job.path) (hj : c.jobs[id]? = some job) (hdone : job.stage.isDone)
    (hspares : ∀ (other : Nat) (job' : Job), c'.jobs[other]? = some job' → c.IsUnended other →
      temporary job'.path ≠ job.path)
    (hx : c.disk.content? job.path = some x) : c'.disk.content? job.path = some x := by
  induction hops using ReflTransGen.head_induction_on generalizing job with
  | refl => exact hx
  | @head c c₁ hop hops ih =>
    have hroot := hop.sameWorld.root
    obtain ⟨job₁, hj₁, hlater⟩ := hop.books.exists_later hj
    rw [← hlater.path] at hpath hspares hx ⊢
    refine ih (hc.operation hop).1 (by rwa [hroot]) hj₁ (hlater.isDone hdone)
      (fun other job' hj' hopen => hspares other job' hj' (hopen.of_operation hop)) ?_
    cases hop.effect with
    | still => exact hx
    | opened => exact hx
    | marked _ _ _ _ disk => rwa [disk]
    | advanced other job' there inFlight =>
      obtain ⟨job'', hj'', hlater'⟩ := exists_later_of_operations (.head hop hops) there
      have hne := hspares other job'' hj'' (isUnended_of_inFlight there inFlight)
      rw [hlater'.path] at hne
      refine hc.content?_advance there inFlight hpath (fun heq => ?_) hne.symm hx
      -- The write that is done stands for the path, so it would be the one that takes the step.
      have hid := hc.balanced.eq_of_stands there hj (hlater.path.symm.trans heq)
        (hc.balanced.stands_of_inFlight there inFlight) (by simp [Job.stands, hdone])
      subst hid
      cases there.symm.trans hj
      rw [inFlight_eq_false_of_isDone hdone] at inFlight
      cases inFlight

/-- A path without a write that stands has no files to be there. -/
theorem Balanced.tends_of_pendingJob? (h : c.Balanced) (hnone : c.pendingJob? path = none)
    (lost : Nat → String → Prop) : c.Tends lost path := by
  refine ⟨fun id job n hj hp hstage => ?_, fun id job hj hp hdone => ?_⟩
  · exact absurd (h.stands_of_inFlight hj (by rw [hstage]; rfl))
      (h.not_stands_of_pendingJob? hnone hj hp)
  · exact absurd (by simp [Job.stands, hdone]) (h.not_stands_of_pendingJob? hnone hj hp)

/-- Cleaning while no write is on its way keeps a cache confined. -/
theorem IsConfined.clean (h : c.IsConfined)
    (hrest : ∀ job ∈ c.jobs, job.stage.inFlight = false) (walk : Sweep.Walk)
    (stuck : String → Bool) : ((Cache.clean walk stuck).run c).2.IsConfined := by
  refine ⟨h.balanced.of_kept rfl rfl rfl rfl, h.free.keeps (swept_sweep h.free walk stuck).keeps,
    h.within, fun id job n hj hstage => ?_⟩
  have hended := hrest job (List.mem_of_getElem? hj)
  rw [hstage] at hended
  cases hended

/-- Whoever is served with a path waited for a write to it that is done. -/
theorem exists_of_outcome (h : c.outcome id = .ok path) :
    ∃ job, c.jobs[id]? = some job ∧ job.path = path ∧ job.stage.isDone := by
  unfold outcome at h
  split at h
  · cases h
  · rename_i job hj
    cases hstage : job.stage with
    | ended outcome =>
      cases outcome with
      | ok =>
        rw [hstage] at h
        exact ⟨job, hj, Except.ok.inj h, by rw [hstage]; rfl⟩
      | error e =>
        rw [hstage] at h
        cases h
    | _ =>
      rw [hstage] at h
      cases h

end Cache

/-! ## Callers -/

namespace Caller

variable {c c' : Cache} {id : Nat} {stage : Stage} {caller : Caller}

/-- A caller waits for a write, or was served; with a path only if the write is done. -/
inductive Stage.IsLed (c : Cache) (id : Nat) : Stage → Prop where
  | waiting : IsLed c id (.waiting id)
  | served (result : Except Failure AbsolutePath)
      (done : ∀ path, result = .ok path →
        ∃ job, c.jobs[id]? = some job ∧ job.path = path ∧ job.stage.isDone) :
      IsLed c id (.served result)

theorem isLed_join (c : Cache) (id : Nat) : (join c id).IsLed c id := by
  unfold join
  split
  · exact .served _ fun path => exists_of_outcome
  · exact .waiting

theorem isLed_wait (c : Cache) (id : Nat) : (wait c id).IsLed c id := by
  unfold wait
  split
  · exact .served _ fun path => exists_of_outcome
  · exact .waiting

theorem Stage.IsLed.operation (h : stage.IsLed c id) (hop : c.Operation c') :
    stage.IsLed c' id := by
  cases h with
  | waiting => exact .waiting
  | served result done =>
    refine .served result fun path hpath => ?_
    obtain ⟨job, hj, hp, hdone⟩ := done path hpath
    obtain ⟨job', hj', hlater⟩ := hop.books.exists_later hj
    exact ⟨job', hj', hlater.path.trans hp, hlater.isDone hdone⟩

/-- A caller who was led to a write takes a step, or gives up. -/
theorem Stage.IsLed.step (h : caller.stage.IsLed c id) :
    (caller.step c).1 = c ∧ (caller.step c).2.stage.IsLed c id ∧
      caller.giveUp.stage.IsLed c id := by
  unfold Caller.step giveUp
  generalize hstage : caller.stage = stage at h
  cases h with
  | waiting => exact ⟨rfl, isLed_wait c id, .served _ (by simp)⟩
  | served result done =>
    refine ⟨rfl, ?_, ?_⟩
    · rw [hstage]
      exact .served result done
    · rw [hstage]
      exact .served result done

theorem Stage.IsLed.exists_of_result? {path : AbsolutePath} (h : caller.stage.IsLed c id)
    (hresult : caller.result? = some (.ok path)) :
    ∃ job, c.jobs[id]? = some job ∧ job.path = path ∧ job.stage.isDone := by
  unfold result? at hresult
  generalize caller.stage = stage at h hresult
  cases h with
  | waiting => cases hresult
  | served result done => exact done path (Option.some.inj hresult)

/-- Whoever asks for a path without a write that stands is led to a new one. -/
theorem step_of_pendingJob?_eq_none {path : AbsolutePath} (hasking : caller.stage = .asking)
    (hforeign : caller.address.isLocal = false) (hpath : c.locate caller.address.url = .ok path)
    (hnone : c.pendingJob? path = none) :
    (caller.step c).1 = c.open_ path caller.content ∧
      (caller.step c).2.stage.IsLed (c.open_ path caller.content) c.jobs.length := by
  simp only [Caller.step, hasking, run_request, hforeign, hpath, hnone, Bool.false_eq_true,
    ↓reduceIte, true_and]
  exact isLed_join _ _

end Caller

namespace Session

variable {s t : Session} {i id : Nat} {caller : Caller}

/-- A caller who was led to a write still is after a move. -/
theorem exists_isLed_play (hcaller : s.callers[i]? = some caller)
    (h : caller.stage.IsLed s.cache id) (m : Move) :
    ∃ caller', (s.play m).callers[i]? = some caller' ∧
      caller'.stage.IsLed (s.play m).cache id := by
  have hi : i < s.callers.length := (List.getElem?_eq_some_iff.1 hcaller).1
  have hop := operation_play s m
  have hplays := s.plays_play m
  generalize s.play m = t at hop hplays ⊢
  cases hplays with
  | calls j other there =>
    by_cases hij : j = i
    · subst hij
      cases hcaller.symm.trans there
      obtain ⟨hcache, hstep, -⟩ := h.step
      rw [hcache]
      exact ⟨_, List.getElem?_set_self hi, hstep⟩
    · exact ⟨caller, by rw [List.getElem?_set_ne hij, hcaller], h.operation hop⟩
  | givesUp j =>
    by_cases hij : j = i
    · subst hij
      exact ⟨_, by simp only [List.getElem?_modify, hcaller]; rfl, h.step.2.2⟩
    · exact ⟨caller, by simp [hij, hcaller], h⟩
  | delivers _ j => exact ⟨caller, by rw [callers_stepDelivery, hcaller], h.operation hop⟩
  | _ => exact ⟨caller, hcaller, h.operation hop⟩

theorem exists_isLed_playAll (hcaller : s.callers[i]? = some caller)
    (h : caller.stage.IsLed s.cache id) (moves : List Move) :
    ∃ caller', (s.playAll moves).callers[i]? = some caller' ∧
      caller'.stage.IsLed (s.playAll moves).cache id := by
  induction moves generalizing s caller with
  | nil => exact ⟨caller, hcaller, h⟩
  | cons m moves ih =>
    obtain ⟨caller', hcaller', h'⟩ := exists_isLed_play hcaller h m
    exact ih hcaller' h'

/-! ## Use and upkeep of a cache -/

/-- Those who use a cache do something: one of them makes a move, or others take their places. -/
inductive Use (s : Session) : Session → Prop where
  | move (m : Move) : Use s (s.play m)
  | users (callers : List Caller) (deliveries : List Delivery) (limit : Nat) (ended : List Nat) :
      Use s { s with callers, deliveries, limit, ended }

/-- A cache is used, or it is cleaned while no write is on its way. -/
inductive Chore (s : Session) : Session → Prop where
  | use (t : Session) (uses : s.Use t) : Chore s t
  | clean (rest : ∀ job ∈ s.cache.jobs, job.stage.inFlight = false) (walk : Sweep.Walk)
      (stuck : String → Bool) : Chore s { s with cache := ((Cache.clean walk stuck).run s.cache).2 }

theorem Use.operation (h : s.Use t) : s.cache.Operation t.cache := by
  cases h with
  | move m => exact operation_play s m
  | users => exact .none

theorem operations_of_uses (h : ReflTransGen Use s t) :
    ReflTransGen Operation s.cache t.cache :=
  h.lift Session.cache fun _ _ => Use.operation

theorem uses_playAll (s : Session) (moves : List Move) : ReflTransGen Use s (s.playAll moves) := by
  induction moves generalizing s with
  | nil => exact .refl
  | cons m moves ih => exact .head (.move m) (ih (s.play m))

theorem chores_of_uses (h : ReflTransGen Use s t) : ReflTransGen Chore s t := by
  induction h with
  | refl => exact .refl
  | tail _ huse ih => exact ih.tail (.use _ huse)

/-- A cache that is used and kept stays confined. -/
theorem isConfined_of_chores (h : ReflTransGen Chore s t) (hs : s.cache.IsConfined) :
    t.cache.IsConfined ∧ t.cache.root = s.cache.root := by
  induction h with
  | refl => exact ⟨hs, rfl⟩
  | tail _ hchore ih =>
    cases hchore with
    | use t uses =>
      have hop := uses.operation
      exact ⟨(ih.1.operation hop).1, hop.sameWorld.root.trans ih.2⟩
    | clean rest walk stuck => exact ⟨ih.1.clean rest walk stuck, ih.2⟩

/-- Whoever asks for a path without a write that stands begins one, and is served with its end: with
the path only when the write is done. -/
theorem exists_job_of_served (hcaller : s.callers[i]? = some caller)
    (hasking : caller.stage = .asking) (hforeign : caller.address.isLocal = false)
    {path served : AbsolutePath} (hpath : s.cache.locate caller.address.url = .ok path)
    (hnone : s.cache.pendingJob? path = none) {moves : List Move}
    (hserved : (((s.play (.call i)).playAll moves).callers[i]?.bind Caller.result?) =
      some (.ok served)) :
    served = path ∧ ∃ job,
      ((s.play (.call i)).playAll moves).cache.jobs[s.cache.jobs.length]? = some job ∧
        job.path = path ∧ job.content = caller.content ∧ job.stage.isDone := by
  obtain ⟨hcache, hled⟩ := Caller.step_of_pendingJob?_eq_none hasking hforeign hpath hnone
  have hcalled : (s.play (.call i)).cache = s.cache.open_ path caller.content := by
    simp only [play, hcaller, hcache]
  have hfirst : (s.play (.call i)).callers[i]? = some (caller.step s.cache).2 := by
    simp only [play, hcaller]
    exact List.getElem?_set_self (List.getElem?_eq_some_iff.1 hcaller).1
  have hopened : (s.play (.call i)).cache.jobs[s.cache.jobs.length]? =
      some { path, content := caller.content } := by
    rw [hcalled]
    exact getElem?_jobs_open_.2 (Or.inr ⟨rfl, rfl⟩)
  rw [← hcalled] at hled
  obtain ⟨caller', hcaller', hled'⟩ := exists_isLed_playAll hfirst hled moves
  rw [hcaller'] at hserved
  obtain ⟨job, hj, hp, hdone⟩ := hled'.exists_of_result? hserved
  obtain ⟨later, hlater, hkept⟩ :=
    exists_later_of_operations (operations_of_uses (uses_playAll _ moves)) hopened
  cases hj.symm.trans hlater
  exact ⟨hp.symm.trans hkept.path, job, hj, hkept.path, hkept.content, hdone⟩

/-- What was stored stays. On a cache with no links below its root, however it has been used and kept,
a caller stores a text at a path without a write that stands, while others do what they like, and is
served with the path. If no write that has taken a step meanwhile was of the temporary file beside it or
had its own temporary file there, the file holds the text; and it goes on to hold it, whatever is done
and fails, as long as no write that has its temporary file there takes a step. A write that does, and
ends well, leaves no file at the path. -/
theorem stored_stays {c : Cache} (fresh : c.IsFresh) (hfree : IsFreeBelow c.disk c.root)
    (hs : ReflTransGen Chore { cache := c } s) (hcaller : s.callers[i]? = some caller)
    (hasking : caller.stage = .asking) (hforeign : caller.address.isLocal = false)
    {path : AbsolutePath} (hpath : c.locate caller.address.url = .ok path)
    (hnone : s.cache.pendingJob? path = none) {moves : List Move} {served : AbsolutePath}
    (hserved : (((s.play (.call i)).playAll moves).callers[i]?.bind Caller.result?) =
      some (.ok served)) :
    let after := (s.play (.call i)).playAll moves
    served = path ∧
      ((∀ (id : Nat) (job : Job), after.cache.jobs[id]? = some job → s.cache.IsUnended id →
        job.path.Spares path) →
        ∀ t, ReflTransGen Use after t →
          (∀ (id : Nat) (job : Job), t.cache.jobs[id]? = some job → after.cache.IsUnended id →
            temporary job.path ≠ path) →
          t.cache.disk.content? path = some caller.content) ∧
      ∀ t, ReflTransGen Use after t → ∀ (id : Nat) (job job' : Job), t.cache.jobs[id]? = some job →
        job.stage.inFlight → temporary job.path = path →
        (t.play (.write id)).cache.jobs[id]? = some job' → job'.stage.isDone →
        (t.play (.write id)).cache.disk.content? path = none := by
  intro after
  obtain ⟨hconfined, hroot⟩ := isConfined_of_chores hs (fresh.isConfined hfree)
  have hwithin : s.cache.root.IsWithin path := by
    rw [hroot]
    exact Name.isWithin_of_locate hpath
  have hlocate : s.cache.locate caller.address.url = .ok path := by
    rw [Cache.locate, hroot]
    exact hpath
  obtain ⟨rfl, job, hj, hp, hcontent, hdone⟩ :=
    exists_job_of_served hcaller hasking hforeign hlocate hnone hserved
  have hops : ReflTransGen Operation s.cache after.cache :=
    operations_of_uses (uses_playAll s (.call i :: moves))
  obtain ⟨hconfined', hroot'⟩ := isConfined_of_operations hops hconfined
  refine ⟨rfl, fun hspares t ht hspares' => ?_, ?_⟩
  · have htends := (hconfined.balanced.tends_of_pendingJob? hnone fun _ _ => False).operations hops
      hconfined hwithin hspares
    have hx : after.cache.disk.content? job.path = some caller.content := by
      rw [hp, ← hcontent]
      exact (htends.done _ job hj hp hdone).resolve_right not_false
    rw [← hp] at hwithin hspares' ⊢
    exact content?_of_operations (operations_of_uses ht) hconfined' (by rwa [hroot']) hj hdone
      hspares' hx
  · rintro t ht id job job' hj hf rfl hj' hdone
    obtain ⟨hconfined'', -⟩ := isConfined_of_operations (operations_of_uses ht) hconfined'
    exact hconfined''.content?_temporary_advance hj hf hj' hdone

/-- A text is stored under a name with the ending of temporary files. It stays while another is stored
elsewhere; when one is stored under the name without the ending, it is gone. -/
theorem stored_stays_until_taken : ∃ (c : Cache) (s t u : Session) (path : AbsolutePath),
    c.IsFresh ∧ IsFreeBelow c.disk c.root ∧ s.cache = c ∧ c.locate "/a.~tmp" = .ok path ∧
      ReflTransGen Use s t ∧ t.cache.disk.content? path = some "x" ∧
      ReflTransGen Use t u ∧ u.cache.disk.content? path = none := by
  let c : Cache := { root := { parts := ["c"] } }
  let callers : List Caller :=
    [{ address := .ofUrl "/a.~tmp" (some false), content := "x" },
      { address := .ofUrl "/b" (some false), content := "z" },
      { address := .ofUrl "/a" (some false), content := "y" }]
  let s : Session := { cache := c, callers }
  let path : AbsolutePath := { parts := ["c", "a.~tmp"] }
  let moves : List Move := [.write 0, .write 0, .write 0, .write 0, .write 0, .settle 0, .call 0]
  let elsewhere : List Move :=
    [.call 1, .write 1, .write 1, .write 1, .write 1, .write 1, .settle 1, .call 1]
  let beside : List Move := [.call 2, .write 2, .write 2, .write 2, .write 2]
  have hfresh : c.IsFresh := ⟨rfl, rfl, rfl, rfl⟩
  have hfree : IsFreeBelow c.disk c.root :=
    isFreeBelow_of_isLinkFree (isLinkFree_of_entries (by simp [c])) c.root
  have hs : ReflTransGen Chore { cache := c } s := .single (.use s (.users callers [] 20 []))
  have hpath : c.locate "/a.~tmp" = .ok path := Act.eq_ok_of_toOption (by decide +kernel)
  let after := (s.play (.call 0)).playAll moves
  have hserved : ((after.callers[0]?.bind Caller.result?).map Except.toOption) =
      some (some path) := by decide +kernel
  obtain ⟨result, hresult, hok⟩ := Option.map_eq_some_iff.1 hserved
  rw [Act.eq_ok_of_toOption hok] at hresult
  obtain ⟨-, hstays, hgone⟩ := stored_stays hfresh hfree hs rfl rfl rfl hpath rfl hresult
  have hspares : ∀ job ∈ after.cache.jobs, job.path ≠ temporary path ∧ temporary job.path ≠ path := by
    decide +kernel
  let t := after.playAll elsewhere
  have hspares' : ∀ job ∈ t.cache.jobs, temporary job.path ≠ path := by decide +kernel
  have hthere := hstays
    (fun id job hj _ => ⟨(hspares job (List.mem_of_getElem? hj)).1,
      (hspares job (List.mem_of_getElem? hj)).2⟩) t (uses_playAll after elsewhere)
    fun id job hj _ => hspares' job (List.mem_of_getElem? hj)
  let u := t.playAll beside
  have hplacing : u.cache.jobs[2]?.any
      (fun job => job.stage.inFlight && temporary job.path = path) := by decide +kernel
  have hdone : (u.play (.write 2)).cache.jobs[2]?.any (fun job => job.stage.isDone) := by
    decide +kernel
  obtain ⟨job, hj, hjob⟩ := (Option.any_eq_true _ _).1 hplacing
  obtain ⟨job', hj', hdone⟩ := (Option.any_eq_true _ _).1 hdone
  simp only [Bool.and_eq_true, decide_eq_true_eq] at hjob
  have huses := uses_playAll t beside
  have hnone := hgone u ((uses_playAll after elsewhere).trans huses) 2 job job' hj hjob.1 hjob.2 hj'
    hdone
  exact ⟨c, s, t, u.play (.write 2), path, hfresh, hfree, rfl, hpath,
    .head (.move (.call 0)) ((uses_playAll _ moves).trans (uses_playAll after elsewhere)), hthere,
    huses.tail (.move (.write 2)), hnone⟩

end Session

end SchemaArtifacts
