import SchemaArtifacts.Proofs.Cache.Trace

/-!
# What a store leaves

A text is stored while nothing else is on its way. If the store fails, whatever the reason and wherever
each of its tries was broken off, nothing tells of it but temporary files, which may hold a part of the
text, and new directories: the books of the cache are as before, so that the next text that is stored at
the path is written anew. If it succeeds, either the path had been written before and nothing was done,
or the text is there.

A store that is tried without end may never be over. So stores are looked at that are waited for during
some number of steps of their write.

## Main definitions

* `Cache.storeWithin` — a text is stored, and some steps of its write are waited for
* `Cache.Event`, `Cache.IsReached` — what happens to a cache and around it
* `Cache.LeavesNoTrace` — a cache and its disk are as before, except for temporary files
* `Cache.BeginsAnew` — the next text that is stored at a path is written

## Main results

* `Cache.run_store` — how many steps are waited for
* `Cache.Balanced.beginsAnew` — a path without a write that stands
* `Cache.store_leaves_no_trace` — what a store leaves
-/

namespace SchemaArtifacts

open Cache Disk Relation

namespace Cache

variable {c c' : Cache} {a : Address} {content : String} {path : AbsolutePath} {id steps : Nat}
  {job : Job} {e : Failure}

/-! ## Stores -/

/-- Stores a text and waits for some steps of its write, for its end if they are enough. -/
def storeWithin (steps : Nat) (a : Address) (content : String) : Act Cache AbsolutePath := do
  let id ← request a content
  modify fun c => (c.run id steps).settle id
  MonadExcept.ofExcept (outcome (← get) id)

theorem run_ofExcept {α : Type} (result : Except Failure α) (c : Cache) :
    (MonadExcept.ofExcept result : Act Cache α).run c = (result, c) := by
  cases result <;> rfl

theorem run_storeWithin (c : Cache) (steps : Nat) (a : Address) (content : String) :
    (storeWithin steps a content).run c =
      match (request a content).run c with
      | (.ok id, c') => (((c'.run id steps).settle id).outcome id, (c'.run id steps).settle id)
      | (.error e, c') => (.error e, c') := by
  rw [storeWithin, Act.run_bind]
  rcases (request a content).run c with ⟨_ | id, c'⟩
  · rfl
  · simp only [Act.run_bind, Act.run_modify, Act.run_get, run_ofExcept]

/-- A store waits for as many steps as a write takes. -/
theorem run_store (c : Cache) (a : Address) (content : String) :
    (store a content).run c = (storeWithin c.stepLimit a content).run c := by
  have hbackoff := (sameWorld_request c a content).backoff
  rw [run_storeWithin, store, Act.run_bind]
  generalize (request a content).run c = begun at hbackoff ⊢
  obtain ⟨_ | id, c'⟩ := begun
  · rfl
  · have hlimit : c'.stepLimit = c.stepLimit := by
      rw [stepLimit, stepLimit, hbackoff]
    simp only [Act.run_bind, Act.run_modify, Act.run_get, run_ofExcept, drain, hlimit]

/-- A store to a path without a write that stands begins one. -/
theorem run_storeWithin_of_none (hforeign : a.isLocal = false) (hpath : c.locate a.url = .ok path)
    (hnone : c.pendingJob? path = none) (steps : Nat) (content : String) :
    let after := (((c.open_ path content).run c.jobs.length steps).settle c.jobs.length)
    (storeWithin steps a content).run c = (after.outcome c.jobs.length, after) := by
  simp [run_storeWithin, run_request, hforeign, hpath, hnone]

/-- A store to a path without a write that stands tries to write. -/
theorem exists_attempts_storeWithin (hforeign : a.isLocal = false)
    (hpath : c.locate a.url = .ok path) (hnone : c.pendingJob? path = none) (steps : Nat)
    (content : String) : ∃ n, ((storeWithin (steps + 1) a content).run c).2.attempts =
      List.replicate (n + 1) path ++ c.attempts := by
  have hj : (c.open_ path content).jobs[c.jobs.length]? = some { path, content } :=
    getElem?_jobs_open_.2 (Or.inr ⟨rfl, rfl⟩)
  obtain ⟨n, hn⟩ := exists_attempts_run ((turns_advance hj rfl).getElem? hj) steps
  refine ⟨n, ?_⟩
  rw [run_storeWithin_of_none hforeign hpath hnone, (kept_settle _ _).2, run_of_inFlight hj rfl, hn,
    attempts_advance hj]
  simp [Stage.isReady, open_, List.replicate_succ']

/-! ## What happens to a cache -/

/-- Something happens to a cache or around it: an operation, or a change of the disk and of what the
world has in store. -/
inductive Event (c : Cache) : (c' : Cache) → Prop where
  | operation (c' : Cache) (op : c.Operation c') : Event c c'
  | world (disk : Disk)
      (faults : List AbsolutePath → AbsolutePath → Moment → Option Interruption)
      (draws : Nat → Number) : Event c { c with disk, faults, draws }

/-- A cache that can be reached from a fresh one. -/
def IsReached (c : Cache) : Prop := ∃ fresh : Cache, fresh.IsFresh ∧ ReflTransGen Event fresh c

theorem Event.books (h : c.Event c') : Books c c' := by
  cases h with
  | operation c' op => exact op.books
  | world => exact .kept rfl rfl rfl rfl

theorem balanced_of_events (h : ReflTransGen Event c c') (hc : c.Balanced) : c'.Balanced := by
  induction h with
  | refl => exact hc
  | tail _ hevent ih => exact hevent.books.balanced ih

theorem exists_later_of_events (h : ReflTransGen Event c c') (hj : c.jobs[id]? = some job) :
    ∃ job', c'.jobs[id]? = some job' ∧ job.Later job' := by
  induction h with
  | refl => exact ⟨job, hj, .refl job⟩
  | tail _ hevent ih =>
    obtain ⟨job', hj', hlater⟩ := ih
    obtain ⟨job'', hj'', hlater'⟩ := hevent.books.exists_later hj'
    exact ⟨job'', hj'', hlater.trans hlater'⟩

theorem IsReached.balanced (h : c.IsReached) : c.Balanced := by
  obtain ⟨fresh, hfresh, hevents⟩ := h
  exact balanced_of_events hevents hfresh.balanced

theorem IsReached.isWithin (h : c.IsReached) : c.IsWithin := by
  obtain ⟨fresh, hfresh, hevents⟩ := h
  induction hevents with
  | refl => simp [IsWithin, hfresh.jobs]
  | tail _ hevent ih =>
    cases hevent with
    | operation c' op => exact ih.operation op
    | world => exact ih

theorem operations_run (c : Cache) (id steps : Nat) : ReflTransGen Operation c (c.run id steps) := by
  induction steps generalizing c with
  | zero => exact .refl
  | succ steps ih =>
    rw [run]
    split
    · exact .refl
    · exact .head (.advance id) (ih (c.advance id))

/-- A store is made of operations. -/
theorem operations_storeWithin (c : Cache) (steps : Nat) (a : Address) (content : String) :
    ReflTransGen Operation c ((storeWithin steps a content).run c).2 := by
  have hrequest : c.Operation ((request a content).run c).2 := .request a content
  rw [run_storeWithin]
  generalize (request a content).run c = begun at hrequest ⊢
  obtain ⟨_ | id, c'⟩ := begun
  · exact .single hrequest
  · exact .head hrequest ((operations_run c' id steps).tail (.settle id))

theorem IsReached.store (h : c.IsReached) (a : Address) (content : String) :
    ((store a content).run c).2.IsReached := by
  obtain ⟨fresh, hfresh, hevents⟩ := h
  rw [run_store]
  have hstore := operations_storeWithin c c.stepLimit a content
  exact ⟨fresh, hfresh, hevents.trans (ReflTransGen.mono (fun _ _ => .operation _) _ _ hstore)⟩

/-- Where there are no links, a cache that can be reached is confined when nothing is on its way. -/
theorem IsReached.isConfined (h : c.IsReached) (hquiet : c.Quiescent)
    (hfree : IsLinkFree c.disk []) : c.IsConfined := by
  refine ⟨h.balanced, isFreeBelow_of_isLinkFree hfree c.root, h.isWithin, ?_⟩
  intro id job n hj hstage
  have hended := inFlight_of_quiescent hquiet job (List.mem_of_getElem? hj)
  rw [hstage] at hended
  cases hended

/-! ## What a store leaves -/

/-- The books of a cache are as before, and so is its disk, except for temporary files and new
directories. -/
structure LeavesNoTrace (c c' : Cache) : Prop where
  count : c'.count = c.count
  written : c'.written = c.written
  pending : c'.pending = c.pending
  files : SameFiles c.disk c'.disk

theorem LeavesNoTrace.refl (c : Cache) : LeavesNoTrace c c := ⟨rfl, rfl, rfl, .refl c.disk⟩

/-- No write stands for a path, and whatever happens, as long as none to this path begins, the next
text that is stored there is tried to be written. -/
structure BeginsAnew (c : Cache) (path : AbsolutePath) : Prop where
  not_pending : c.pendingJob? path = none
  tries : ∀ c', ReflTransGen Event c c' →
    (∀ (id : Nat) (job : Job), c'.jobs[id]? = some job → job.path = path → id < c.jobs.length) →
    ∀ (a : Address) (content : String) (steps : Nat), a.isLocal = false →
      c'.locate a.url = .ok path → ∃ n, ((storeWithin (steps + 1) a content).run c').2.attempts =
        List.replicate (n + 1) path ++ c'.attempts

/-- A path for which no write stands stays without one until a write to it begins. -/
theorem Balanced.beginsAnew (h : c.Balanced) (hnone : c.pendingJob? path = none) :
    c.BeginsAnew path := by
  refine ⟨hnone, fun c' hevents hold a content steps hforeign hpath => ?_⟩
  suffices hnone' : c'.pendingJob? path = none from
    exists_attempts_storeWithin hforeign hpath hnone' steps content
  cases hpending : c'.pendingJob? path with
  | none => rfl
  | some id =>
    obtain ⟨job', hj', hp', hstands'⟩ :=
      (balanced_of_events hevents h).exists_of_pendingJob? hpending
    have hlt := hold id job' hj' hp'
    obtain ⟨later, hlater, hkept⟩ :=
      exists_later_of_events hevents (List.getElem?_eq_getElem hlt)
    cases hj'.symm.trans hlater
    have hj := List.getElem?_eq_getElem hlt
    have hnot := h.not_stands_of_pendingJob? hnone hj (hkept.path.symm.trans hp')
    simp only [Job.stands, Bool.or_eq_true, Bool.not_eq_true', not_or, Bool.not_eq_true,
      Bool.not_eq_false] at hnot hstands'
    have hstage := hkept.stage (h.ended id _ hj hnot.2)
    rw [hstage, hnot.1, hkept.settled hnot.2] at hstands'
    simp at hstands'

variable {c₀ : Cache} {stage : Stage}

theorem outcome_of_inFlight (hj : c.jobs[id]? = some job) (hf : job.stage.inFlight) :
    (c.settle id).outcome id = .error .cancelled := by
  have hnone : job.stage.outcome? = none := by simpa [Stage.inFlight] using hf
  rw [settle_of_inFlight hj hf, outcome, hj]
  simp [hnone]

/-- What is waited for when the end of a write is noted. -/
theorem outcome_of_ended (hj : c.jobs[id]? = some job) (hopen : job.settled = false)
    {result : Except Failure Unit} (hstage : job.stage = .ended result) :
    (c.settle id).outcome id = result.map fun _ => job.path := by
  have hj' : (c.settle id).jobs[id]? = some { job with settled := true } := by
    rw [jobs_settle hj (by rw [hstage]; rfl) hopen, List.getElem?_modify, hj]
    simp
  have houtcome := outcome_of_stage hj' hstage
  exact houtcome

/-- A write that has failed leaves no trace. -/
theorem Underway.leavesNoTrace (h : Underway c₀ path content (.ended (.error e)) c)
    (hnone : c₀.pendingJob? path = none) : LeavesNoTrace c₀ (c.settle c₀.jobs.length) := by
  have hsettle : c.settle c₀.jobs.length =
      { c with
        jobs := c.jobs.modify c₀.jobs.length fun job => { job with settled := true }
        pending := c.pending.filter fun entry => entry.1 ≠ path } := by
    simp [settle, h.getElem?, Stage.outcome?]
  have hpending : c₀.pending.filter (fun entry => entry.1 ≠ path) = c₀.pending := by
    rw [List.filter_eq_self]
    rintro ⟨p, other⟩ hmem
    have hp : p ≠ path := by
      rintro rfl
      exact pendingJob?_eq_none_iff.1 hnone (List.mem_map.2 ⟨_, hmem, rfl⟩)
    simpa using hp
  rw [hsettle]
  refine ⟨h.count, h.written, ?_, h.files rfl⟩
  dsimp only
  rw [h.pending, List.filter_cons_of_neg (by simp), hpending]

/-- A store joins a write only if it has put its artifact in its place, when nothing is on its way. -/
theorem run_storeWithin_of_pendingJob? (hb : c.Balanced) (hquiet : c.Quiescent)
    (hforeign : a.isLocal = false) (hpath : c.locate a.url = .ok path)
    (hpending : c.pendingJob? path = some id) (steps : Nat) (content : String) :
    (storeWithin steps a content).run c = (.ok path, c) ∧ path ∈ c.written := by
  obtain ⟨job, hj, rfl, hstands⟩ := hb.exists_of_pendingJob? hpending
  have hsettled := (hquiet job (List.mem_of_getElem? hj)).2
  have hdone : job.stage.isDone := by simpa [Job.stands, hsettled] using hstands
  have houtcome : c.outcome id = .ok job.path := by
    rw [outcome, hj]
    simp only [isDone_iff_outcome?.1 hdone]
  refine ⟨?_, (hb.mem_written _).2 ⟨id, job, hj, rfl, hdone, hsettled⟩⟩
  simp only [run_storeWithin, run_request, hforeign, hpath, hpending, Bool.false_eq_true, if_false,
    run_of_ended hj (inFlight_eq_false_of_isDone hdone), settle_of_settled hj hsettled, houtcome]

/-- A write that was waited for until it had ended has left no trace, or its text. -/
theorem Underway.aftermath (h : Underway c₀ path content stage c)
    (hnone : c₀.pendingJob? path = none) :
    let after := c.settle c₀.jobs.length
    (∀ p, after.outcome c₀.jobs.length = .ok p → p = path ∧ after.count = c₀.count + 1 ∧
        after.disk.content? path = some content) ∧
      ∀ e, after.outcome c₀.jobs.length = .error e →
        e = .cancelled ∧ stage.inFlight ∨ LeavesNoTrace c₀ after ∧ after.BeginsAnew path := by
  intro after
  have hj := h.getElem?
  cases hf : stage.inFlight with
  | true =>
    have houtcome : after.outcome c₀.jobs.length = .error .cancelled := outcome_of_inFlight hj hf
    rw [houtcome]
    exact ⟨by simp, fun e he => Or.inl ⟨(Except.error.inj he).symm, rfl⟩⟩
  | false =>
    obtain ⟨result, rfl⟩ : ∃ result, stage = .ended result := by
      cases stage with
      | ended result => exact ⟨result, rfl⟩
      | _ => cases hf
    have houtcome : after.outcome c₀.jobs.length = result.map fun _ => path :=
      outcome_of_ended hj rfl rfl
    rw [houtcome]
    cases result with
    | ok =>
      have hcontent := (h.tends.done _ _ hj rfl rfl).resolve_right not_false
      have hcount : after.count = c₀.count + 1 := (kept_settle c _).1.trans h.count
      refine ⟨fun p hp => ⟨(Except.ok.inj hp).symm, hcount, ?_⟩, by simp [Except.map]⟩
      rwa [disk_settle]
    | error failure =>
      have htrace := h.leavesNoTrace hnone
      have hbalanced := (books_settle c c₀.jobs.length).balanced h.confined.balanced
      have hnone' : after.pendingJob? path = none := by
        rwa [pendingJob?, htrace.pending]
      exact ⟨by simp [Except.map], fun e _ => Or.inr ⟨htrace, hbalanced.beginsAnew hnone'⟩⟩

/-- What a store leaves that is waited for during any number of steps: if it fails, no trace, and
either nothing at all has happened or the next text for the path is written; if it succeeds, the path
had been written before and nothing has happened, or the text was written and is there. A store is over
if enough steps are waited for, unless tries are made without end. -/
theorem store_leaves_no_trace (reached : c.IsReached) (quiet : c.Quiescent)
    (free : IsLinkFree c.disk []) (a : Address) (content : String) :
    (store a content).run c = (storeWithin c.stepLimit a content).run c ∧
      ∀ steps result c', (storeWithin steps a content).run c = (result, c') →
        (∀ path, result = .ok path → c.locate a.url = .ok path ∧
          (c' = c ∧ path ∈ c.written ∨
            c'.count = c.count + 1 ∧ c'.disk.content? path = some content)) ∧
        ∀ e, result = .error e →
          e = .cancelled ∧ (steps < c.stepLimit ∨ c.backoff.IsPatient) ∨
          LeavesNoTrace c c' ∧
            (c' = c ∧ (a.isLocal ∨ ∃ refusal, c.locate a.url = .error refusal) ∨
              ∃ path, c.locate a.url = .ok path ∧ c'.BeginsAnew path) := by
  refine ⟨run_store c a content, fun steps result c' hrun => ?_⟩
  cases hlocal : a.isLocal with
  | true =>
    simp only [run_storeWithin, run_request, hlocal, if_true] at hrun
    cases hrun
    exact ⟨by simp, fun _ _ => Or.inr ⟨.refl c, Or.inl ⟨rfl, Or.inl rfl⟩⟩⟩
  | false =>
    cases hpath : c.locate a.url with
    | error refusal =>
      simp only [run_storeWithin, run_request, hlocal, hpath, Bool.false_eq_true, if_false] at hrun
      cases hrun
      exact ⟨by simp, fun _ _ => Or.inr ⟨.refl c, Or.inl ⟨rfl, Or.inr ⟨refusal, rfl⟩⟩⟩⟩
    | ok path =>
      cases hpending : c.pendingJob? path with
      | some id =>
        obtain ⟨hjoined, hwritten⟩ :=
          run_storeWithin_of_pendingJob? reached.balanced quiet hlocal hpath hpending steps content
        cases hjoined.symm.trans hrun
        exact ⟨fun p hp => by cases hp; exact ⟨rfl, Or.inl ⟨rfl, hwritten⟩⟩, by simp⟩
      | none =>
        have hbegun :=
          underway_open_ (reached.isConfined quiet free) quiet hlocal hpath hpending content
        obtain ⟨stage, hrunning⟩ := hbegun.run steps
        obtain ⟨hok, herror⟩ := hrunning.aftermath hpending
        cases (run_storeWithin_of_none hlocal hpath hpending steps content).symm.trans hrun
        refine ⟨fun p hp => ?_, fun e he => ?_⟩
        · obtain ⟨rfl, hcount, hcontent⟩ := hok p hp
          exact ⟨rfl, Or.inr ⟨hcount, hcontent⟩⟩
        · refine (herror e he).imp (And.imp_right fun hf => ?_)
            (And.imp_right fun hanew => Or.inr ⟨path, rfl, hanew⟩)
          by_contra hover
          rw [not_or, Nat.not_lt] at hover
          have hbounded : ¬ (c.open_ path content).backoff.IsPatient := hover.2
          have hended := hasEnded_run hbounded hbegun.getElem? hover.1
          rw [Delivery.hasEnded_iff hrunning.getElem?, hf] at hended
          cases hended

/-- A text is to be stored in the place of an older one. The first try is broken off when the temporary
file is to get the name of the artifact, and the second when that file is closed, so that only the
beginning of the text has arrived. The older text is still there, and the next store puts its text in
its place. -/
theorem store_leaves_no_trace_torn : ∃ (c : Cache) (a : Address) (path : AbsolutePath)
    (e : Failure), c.disk.content? path = some "old" ∧
      let failed := (store a "new").run c
      failed.1 = .error e ∧ LeavesNoTrace c failed.2 ∧ failed.2.BeginsAnew path ∧
        failed.2.attempts = [path, path] ∧
        failed.2.disk.get? ["c", "a.~tmp"] = some (.file "ne") ∧
        failed.2.disk.content? path = some "old" ∧
        let done := (store a "again").run failed.2
        done.1 = .ok path ∧ done.2.count = 1 ∧ done.2.disk.content? path = some "again" := by
  let full : Incident := { label := "OSError", transient := true, message := "full" }
  let c : Cache :=
    { root := { parts := ["c"] }
      backoff := { maxRetries := .int 1 }
      disk := { entries := [(["c"], .directory), (["c", "a"], .file "old")] }
      faults := fun made _ moment =>
        if made.length = 1 && moment = .placing || made.length = 2 && moment = .closing then
          some { incident := full, progress := 2 }
        else none
      draws := fun _ => .real (.finite false (1 / 2)) }
  let a : Address := { url := "/a", isLocal := false }
  let path : AbsolutePath := { parts := ["c", "a"] }
  let failed := (store a "new").run c
  have hreached : c.IsReached := ⟨c, ⟨rfl, rfl, rfl, rfl⟩, .refl⟩
  have hpath : c.locate a.url = .ok path := Act.eq_ok_of_toOption (by decide +kernel)
  obtain ⟨e, he⟩ : ∃ e, failed.1 = .error e := by
    have hnone : failed.1.toOption = none := by decide +kernel
    cases hresult : failed.1 with
    | ok p => simp [hresult, Except.toOption] at hnone
    | error e => exact ⟨e, rfl⟩
  obtain ⟨hstore, hleaves⟩ := store_leaves_no_trace hreached (by simp [Quiescent, c])
    (isLinkFree_of_entries (by simp [c])) a "new"
  obtain ⟨htrace, hanew⟩ := ((hleaves c.stepLimit failed.1 failed.2 hstore.symm).2 e he).resolve_left
    fun hopen => hopen.2.elim (Nat.lt_irrefl _) (by simp [Backoff.IsPatient, c])
  obtain ⟨_, hpath', hanew⟩ := hanew.resolve_left fun hrefused => by
    rcases hrefused.2 with hlocal | ⟨refusal, hrefusal⟩
    · cases hlocal
    · cases hpath.symm.trans hrefusal
  cases hpath.symm.trans hpath'
  have hquiet : ∀ job ∈ failed.2.jobs, job.stage.outcome?.isSome ∧ job.settled := by decide +kernel
  have hentries : failed.2.disk.entries = [(["c", "a.~tmp"], .file "ne"), (["c"], .directory),
      (["c", "a"], .file "old")] := by decide +kernel
  obtain ⟨hstore', hleaves'⟩ := store_leaves_no_trace (hreached.store a "new") hquiet
    (isLinkFree_of_entries (by simp [failed, hentries])) a "again"
  have hdone : ((store a "again").run failed.2).1 = .ok path :=
    Act.eq_ok_of_toOption (by decide +kernel)
  have hwrote := ((hleaves' failed.2.stepLimit _ _ hstore'.symm).1 path hdone).2
  have hnew : path ∉ failed.2.written := by decide +kernel
  obtain ⟨hcount, hcontent⟩ := hwrote.resolve_left fun hknown => hnew hknown.2
  have hzero : failed.2.count = 0 := by decide +kernel
  rw [hzero] at hcount
  exact ⟨c, a, path, e, by decide +kernel, he, htrace, hanew, by decide +kernel, by decide +kernel,
    by decide +kernel, hdone, hcount, hcontent⟩

end Cache
end SchemaArtifacts
