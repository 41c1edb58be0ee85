import SchemaArtifacts.Proofs.Cache.Chance
import SchemaArtifacts.Proofs.Cache.Trace

/-!
# The tries of a write

A write that fails in passing rests and tries again, as often as it may. What a try ends in is told
without the write: by what the world has in store for it, and by the disk as the tries before it have
left it. So the course of a write is told by the outcomes of its tries: it goes on up to the first
that does not fail in passing, or up to the last that it may make.

## Main definitions

* `Job.attempt` — everything that one try does on a disk
* `Cache.tried` — what a try ends in, and the disk then
* `Cache.afterTries`, `Cache.tryOutcome` — some tries one after another, and what the next ends in
* `Cache.HasTried` — a write has made some tries, rested between them, and ended with the last one

## Main results

* `Cache.exists_run_try` — a write makes one try
* `Cache.exists_run_tries` — a write has made some tries and begins the next one
* `Cache.hasTried_run` — how many tries a write makes, and what else comes of it
-/

namespace SchemaArtifacts

/-- Everything that one try does on a disk: the directories are made, the temporary file is opened, filled
and closed, and it gets the name of the artifact. It may be broken off before and after it has asked for
the directories. -/
def Job.attempt (job : Job) (before after : Moment → Option Interruption) : Act Disk Unit := do
  job.makeWay before
  job.perform after .opening
  job.perform after .filling
  job.perform after .closing
  job.perform after .placing

namespace Cache

variable {c : Cache} {id n k last : Nat} {job : Job} {m : Int} {delays : Nat → Number}

/-! ## Tries on their own -/

/-- What a try to write a text ends in, and the disk then. -/
def tried (c : Cache) (path : AbsolutePath) (content : String) : Except Failure Unit × Disk :=
  (Job.attempt { path, content } (c.faults c.attempts path)
    (c.faults (path :: c.attempts) path)).run c.disk

/-- A cache after some tries to write a text, one after another. -/
def afterTries (c : Cache) (path : AbsolutePath) (content : String) : (tries : Nat) → Cache
  | 0 => c
  | tries + 1 =>
    let before := c.afterTries path content tries
    { before with
      attempts := path :: before.attempts, disk := (before.tried path content).2 }

/-- What the try with a number, counted from zero, ends in when all before it were made. -/
def tryOutcome (c : Cache) (path : AbsolutePath) (content : String) (n : Nat) :
    Except Failure Unit :=
  ((c.afterTries path content n).tried path content).1

/-- The try with a number fails in passing. -/
def FailsInPassing (c : Cache) (job : Job) (n : Nat) : Prop :=
  ∃ e, c.tryOutcome job.path job.content n = .error e ∧ e.isTransient

/-- Tries change nothing but the disk and the list of tries. -/
theorem afterTries_eq (c : Cache) (path : AbsolutePath) (content : String) (tries : Nat) :
    c.afterTries path content tries =
      { c with
        attempts := List.replicate tries path ++ c.attempts
        disk := (c.afterTries path content tries).disk } := by
  induction tries with
  | zero => rfl
  | succ tries ih =>
    rw [afterTries, ih]
    rfl

/-! ## One try of a write -/

@[simp] theorem setStage_setStage (c : Cache) (id : Nat) (stage stage' : Stage) :
    (c.setStage id stage).setStage id stage' = c.setStage id stage' := by
  simp only [setStage, List.modify_modify_eq]
  rfl

theorem setStage_self (hj : c.jobs[id]? = some job) : c.setStage id job.stage = c := by
  have hjobs : (c.jobs.modify id fun other => { other with stage := job.stage }) = c.jobs := by
    refine List.ext_getElem? fun i => ?_
    rw [List.getElem?_modify]
    by_cases hi : id = i
    · subst hi
      rw [hj]
      simp
    · simp [hi]
  rw [setStage, hjobs]

theorem getElem?_jobs_setStage (hj : c.jobs[id]? = some job) (stage : Stage) :
    (c.setStage id stage).jobs[id]? = some { job with stage } := by
  simp [setStage, hj]

/-- A failed try does not look at the stage of its write. -/
@[simp] theorem failTry_setStage (c : Cache) (id attempt : Nat) (stage : Stage) (e : Failure) :
    (c.setStage id stage).failTry id attempt e = c.failTry id attempt e := by
  simp only [failTry, setStage, List.modify_modify_eq]
  rfl

/-- Closes a try of a write with what it has ended in. -/
def closeTry (c : Cache) (id attempt : Nat) : Except Failure Unit × Disk → Cache
  | (.ok (), disk) => { c with disk, count := c.count + 1 }.setStage id (.ended (.ok ()))
  | (.error e, disk) => { c with disk }.failTry id attempt e

@[simp] theorem closeTry_setStage (c : Cache) (id attempt : Nat) (stage : Stage)
    (result : Except Failure Unit × Disk) :
    (c.setStage id stage).closeTry id attempt result = c.closeTry id attempt result := by
  obtain ⟨_ | _, disk⟩ := result
  · exact failTry_setStage { c with disk } id attempt stage _
  · exact setStage_setStage { c with disk, count := c.count + 1 } id stage _

/-- Closing a try puts the disk as the try has left it. -/
theorem closeTry_disk (c : Cache) (disk : Disk) (id attempt : Nat)
    (result : Except Failure Unit × Disk) :
    { c with disk }.closeTry id attempt result = c.closeTry id attempt result := by
  obtain ⟨_ | _, _⟩ := result <;> rfl

/-- An operation on the disk within a try: if it fails, the try is over, and otherwise the rest of the
try closes it. -/
theorem exists_run_onDisk (c' : Cache) (next : Stage) {act rest : Act Disk Unit}
    (hj : c.jobs[id]? = some job) (hf : job.stage.inFlight)
    (hadvance : c.advance id = c'.onDisk id n act next)
    (hrest : ∀ disk, ∃ steps, ({ c' with disk }.setStage id next).run id steps =
      ({ c' with disk }.setStage id next).closeTry id n (rest.run disk)) :
    ∃ steps, c.run id steps = c'.closeTry id n ((act >>= fun _ => rest).run c'.disk) := by
  rw [Act.run_bind]
  rcases hact : act.run c'.disk with ⟨result, disk⟩
  cases result with
  | error e =>
    refine ⟨1, ?_⟩
    rw [run_of_inFlight hj hf, run_zero, hadvance, onDisk, hact]
    rfl
  | ok _ =>
    obtain ⟨steps, hsteps⟩ := hrest disk
    refine ⟨steps + 1, ?_⟩
    rw [run_of_inFlight hj hf, hadvance, onDisk, hact]
    dsimp only
    rw [hsteps, closeTry_setStage, closeTry_disk]

/-- The last operation of a try. -/
theorem exists_run_placing (hj : c.jobs[id]? = some job) (hs : job.stage = .placing n) :
    ∃ steps, c.run id steps = c.closeTry id n
      ((job.perform (c.faults c.attempts job.path) .placing).run c.disk) := by
  refine ⟨1, ?_⟩
  rw [run_of_inFlight hj (by rw [hs]; rfl), run_zero, advance, hj]
  simp only [hs]
  rcases hact : (job.perform (c.faults c.attempts job.path) .placing).run c.disk with ⟨result, disk⟩
  cases result with
  | ok _ =>
    have hended := getElem?_jobs_setStage (c := { c with disk }) hj (.ended (.ok ()))
    simp only [onDisk, hact, hended]
    rfl
  | error e =>
    have hended := (turns_failTry { c with disk } id n e).getElem? hj
    have hnot := Stage.isDone_setBack c.backoff (c.draws c.drawn) n e
    simp only [onDisk, hact, hended, Option.bind_some]
    split
    · rename_i hout
      rw [isDone_iff_outcome?.2 hout] at hnot
      cases hnot
    · rfl

theorem exists_run_closing (hj : c.jobs[id]? = some job) (hs : job.stage = .closing n) :
    ∃ steps, c.run id steps = c.closeTry id n ((do
      job.perform (c.faults c.attempts job.path) .closing
      job.perform (c.faults c.attempts job.path) .placing).run c.disk) :=
  exists_run_onDisk c (.placing n) hj (by rw [hs]; rfl) (by simp only [advance, hj, hs]) fun disk =>
    (exists_run_placing (getElem?_jobs_setStage (c := { c with disk }) hj _) rfl :)

theorem exists_run_filling (hj : c.jobs[id]? = some job) (hs : job.stage = .filling n) :
    ∃ steps, c.run id steps = c.closeTry id n ((do
      job.perform (c.faults c.attempts job.path) .filling
      job.perform (c.faults c.attempts job.path) .closing
      job.perform (c.faults c.attempts job.path) .placing).run c.disk) :=
  exists_run_onDisk c (.closing n) hj (by rw [hs]; rfl) (by simp only [advance, hj, hs]) fun disk =>
    (exists_run_closing (getElem?_jobs_setStage (c := { c with disk }) hj _) rfl :)

theorem exists_run_opening (hj : c.jobs[id]? = some job) (hs : job.stage = .opening n) :
    ∃ steps, c.run id steps = c.closeTry id n ((do
      job.perform (c.faults c.attempts job.path) .opening
      job.perform (c.faults c.attempts job.path) .filling
      job.perform (c.faults c.attempts job.path) .closing
      job.perform (c.faults c.attempts job.path) .placing).run c.disk) :=
  exists_run_onDisk c (.filling n) hj (by rw [hs]; rfl) (by simp only [advance, hj, hs]) fun disk =>
    (exists_run_filling (getElem?_jobs_setStage (c := { c with disk }) hj _) rfl :)

/-- A write makes one try. -/
theorem exists_run_try (hj : c.jobs[id]? = some job) (hs : job.stage = .ready n) :
    ∃ steps, c.run id steps = { c with attempts := job.path :: c.attempts }.closeTry id n
      (c.tried job.path job.content) :=
  exists_run_onDisk { c with attempts := job.path :: c.attempts } (.opening n) hj (by rw [hs]; rfl)
    (by simp only [advance, hj, hs]; rfl) fun disk =>
      (exists_run_opening (getElem?_jobs_setStage
        (c := { c with attempts := job.path :: c.attempts, disk }) hj _) rfl :)

/-! ## Tries one after another -/

/-- The steps of a write one after another. -/
theorem run_add (c : Cache) (id steps more : Nat) :
    c.run id (steps + more) = (c.run id steps).run id more := by
  induction steps generalizing c with
  | zero => rw [Nat.zero_add, run_zero]
  | succ steps ih =>
    cases hended : c.hasEnded id with
    | true => rw [run_of_hasEnded hended, run_of_hasEnded hended, run_of_hasEnded hended]
    | false =>
      rw [Nat.add_right_comm, run_of_not_hasEnded hended, run_of_not_hasEnded hended, ih]

/-- A write that has ended within some steps has come to the same end within any others. -/
theorem run_eq_of_hasEnded {steps steps' : Nat} (h : (c.run id steps).hasEnded id)
    (h' : (c.run id steps').hasEnded id) : c.run id steps = c.run id steps' := by
  rcases Nat.le_total steps steps' with hle | hle
  · obtain ⟨more, rfl⟩ := Nat.exists_eq_add_of_le hle
    rw [run_add, run_of_hasEnded h]
  · obtain ⟨more, rfl⟩ := Nat.exists_eq_add_of_le hle
    rw [run_add, run_of_hasEnded h']

/-- A cache in which a write is about to begin the try with a number: all before it have failed in
passing, and each was followed by a rest. -/
def atTry (c : Cache) (id : Nat) (job : Job) (delays : Nat → Number) (n : Nat) : Cache :=
  { c with
    attempts := List.replicate n job.path ++ c.attempts
    disk := (c.afterTries job.path job.content n).disk
    drawn := c.drawn + n
    slept := c.slept ++ (List.range n).map delays }.setStage id (.ready n)

theorem getElem?_jobs_atTry (hj : c.jobs[id]? = some job) (delays : Nat → Number) (n : Nat) :
    (c.atTry id job delays n).jobs[id]? = some { job with stage := .ready n } :=
  getElem?_jobs_setStage (by exact hj) (.ready n)

/-- A try ends as it does on its own. -/
theorem tried_atTry (c : Cache) (id : Nat) (job : Job) (delays : Nat → Number) (n : Nat) :
    (c.atTry id job delays n).tried job.path job.content =
      (c.tryOutcome job.path job.content n, (c.afterTries job.path job.content (n + 1)).disk) := by
  have htried : (c.atTry id job delays n).tried job.path job.content =
      (c.afterTries job.path job.content n).tried job.path job.content := by
    rw [afterTries_eq]
    rfl
  rw [htried]
  rfl

/-- A passing failure is followed by a rest if another try may be made. -/
theorem failTry_of_rest {e : Failure} {d : Number} (htransient : e.isTransient)
    (hallows : c.backoff.allows n) (hdraw : c.backoff.draws n)
    (hrest : c.backoff.rest n (c.draws c.drawn) = .ok d) : c.failTry id n e =
      { c with drawn := c.drawn + 1, slept := c.slept ++ [d] }.setStage id (.resting n) := by
  simp only [failTry, htransient, hallows, hdraw, hrest, Bool.and_self, if_true]

/-- Any other failure is the end of its write. -/
theorem failTry_of_not {e : Failure} (h : e.isTransient → c.backoff.allows n = false) :
    c.failTry id n e = c.setStage id (.ended (.error e)) := by
  have hnot : (e.isTransient && c.backoff.allows n) = false := by simpa using h
  simp only [failTry, hnot, Bool.false_eq_true, if_false]

theorem run_of_resting (hj : c.jobs[id]? = some job) (hs : job.stage = .resting n) :
    c.run id 1 = c.setStage id (.ready (n + 1)) := by
  rw [run_of_inFlight hj (by rw [hs]; rfl), run_zero, advance, hj]
  simp only [hs]

/-- A try that fails in passing and may be followed by another is followed by another. -/
theorem exists_run_atTry (hj : c.jobs[id]? = some job) (hallows : c.backoff.allows n)
    (hdraws : ∀ k, ∃ x, c.draws k = .real x)
    (hdelay : c.backoff.delay n (c.draws (c.drawn + n)) = .ok (delays n))
    (hfails : c.FailsInPassing job n) :
    ∃ steps, (c.atTry id job delays n).run id steps = c.atTry id job delays (n + 1) := by
  obtain ⟨e, he, htransient⟩ := hfails
  obtain ⟨x, hx⟩ := hdraws (c.drawn + n)
  have hrest : c.backoff.rest n (c.draws (c.drawn + n)) = .ok (delays n) := by
    rw [hx] at hdelay ⊢
    rw [Backoff.rest_real, hdelay]
  have hbegun := getElem?_jobs_atTry hj delays n
  obtain ⟨steps, hsteps⟩ := exists_run_try hbegun rfl
  rw [tried_atTry, he, closeTry, failTry_of_rest htransient (by exact hallows)
    (by exact Backoff.draws_of_delay (hx ▸ hdelay)) (by exact hrest)] at hsteps
  refine ⟨steps + 1, ?_⟩
  rw [run_add, hsteps, run_of_resting (getElem?_jobs_setStage (by exact hbegun) _) rfl,
    setStage_setStage, atTry, atTry]
  simp only [setStage, List.modify_modify_eq, List.range_succ, List.map_append, List.append_assoc,
    List.replicate_succ]
  rfl

/-- A write has made some tries and begins the next one: all before it have failed in passing. -/
theorem exists_run_tries (hj : c.jobs[id]? = some job) (hready : job.stage = .ready 0)
    (hdraws : ∀ k, ∃ x, c.draws k = .real x)
    (hmade : ∀ i < n, c.FailsInPassing job i ∧ c.backoff.allows i ∧
      c.backoff.delay i (c.draws (c.drawn + i)) = .ok (delays i)) :
    ∃ steps, c.run id steps = c.atTry id job delays n := by
  induction n with
  | zero =>
    refine ⟨0, ?_⟩
    have hself := setStage_self hj
    rw [hready] at hself
    simp [atTry, afterTries, hself]
  | succ n ih =>
    obtain ⟨steps, hsteps⟩ := ih fun i hi => hmade i (Nat.lt_succ_of_lt hi)
    obtain ⟨hfails, hallows, hdelay⟩ := hmade n (Nat.lt_succ_self n)
    obtain ⟨more, hmore⟩ := exists_run_atTry hj hallows hdraws hdelay hfails
    exact ⟨steps + more, by rw [run_add, hsteps, hmore]⟩

/-! ## The course of a write -/

/-- A write has made tries up to the one with a number, rested between each two of them, and ended
with what the last one ended in; it is counted if that was its success. -/
structure HasTried (c c' : Cache) (id : Nat) (job : Job) (delays : Nat → Number) (last : Nat) :
    Prop where
  jobs : c'.jobs = c.jobs.modify id fun other =>
    { other with stage := .ended (c.tryOutcome job.path job.content last) }
  attempts : c'.attempts = List.replicate (last + 1) job.path ++ c.attempts
  slept : c'.slept = c.slept ++ (List.range last).map delays
  drawn : c'.drawn = c.drawn + last
  count : c'.count =
    c.count + if (c.tryOutcome job.path job.content last).isOk then 1 else 0
  disk : c'.disk = (c.afterTries job.path job.content (last + 1)).disk
  pending : c'.pending = c.pending
  written : c'.written = c.written

/-- A write has ended with its last try. -/
theorem hasTried_setStage {result : Except Failure Unit} {count : Nat}
    (hout : c.tryOutcome job.path job.content last = result)
    (hcount : count = c.count + if result.isOk then 1 else 0) :
    HasTried c ({ c.atTry id job delays last with
      attempts := job.path :: (c.atTry id job delays last).attempts
      disk := (c.afterTries job.path job.content (last + 1)).disk
      count }.setStage id (.ended result)) id job delays last := by
  subst hout
  refine ⟨?_, rfl, rfl, rfl, hcount, rfl, rfl, rfl⟩
  simp only [setStage, atTry, List.modify_modify_eq]
  rfl

/-- The last try of a write. -/
theorem exists_hasTried (delays : Nat → Number) (hj : c.jobs[id]? = some job)
    (hlast : c.FailsInPassing job last → c.backoff.allows last = false) :
    ∃ steps, HasTried c ((c.atTry id job delays last).run id steps) id job delays last := by
  obtain ⟨steps, hsteps⟩ := exists_run_try (getElem?_jobs_atTry hj delays last) rfl
  rw [tried_atTry] at hsteps
  refine ⟨steps, ?_⟩
  cases hout : c.tryOutcome job.path job.content last with
  | ok _ =>
    rw [hout, closeTry] at hsteps
    rw [hsteps]
    exact hasTried_setStage hout rfl
  | error e =>
    have hend : e.isTransient → c.backoff.allows last = false := fun he => hlast ⟨e, hout, he⟩
    rw [hout, closeTry, failTry_of_not (by exact hend)] at hsteps
    rw [hsteps]
    exact hasTried_setStage hout rfl

theorem HasTried.hasEnded {c' : Cache} (h : HasTried c c' id job delays last)
    (hj : c.jobs[id]? = some job) : c'.hasEnded id := by
  simp [Cache.hasEnded, h.jobs, hj, Stage.outcome?]

/-- A write whose first tries fail in passing, and may be followed by others, ends with the next one if
that does not fail in passing or is the last one that may be made. -/
theorem hasTried_run_of_made (hj : c.jobs[id]? = some job) (hready : job.stage = .ready 0)
    (hpatient : ¬ c.backoff.IsPatient) (hdraws : ∀ k, ∃ x, c.draws k = .real x)
    (hmade : ∀ i < last, c.FailsInPassing job i ∧ c.backoff.allows i ∧
      c.backoff.delay i (c.draws (c.drawn + i)) = .ok (delays i))
    (hlast : c.FailsInPassing job last → c.backoff.allows last = false) {steps : Nat}
    (hsteps : c.stepLimit ≤ steps) : HasTried c (c.run id steps) id job delays last := by
  obtain ⟨before, hbefore⟩ := exists_run_tries hj hready hdraws hmade
  obtain ⟨more, hmore⟩ := exists_hasTried delays hj hlast
  rw [← hbefore, ← run_add] at hmore
  have hwork : job.stage.work c.backoff.tryLimit ≤ steps := by
    rw [hready]
    exact hsteps
  rwa [← run_eq_of_hasEnded (hmore.hasEnded hj) (hasEnded_run hpatient hj hwork)]

/-- The course of a write that may be tried again `m` times, none if `m` is negative. It ends with the
first try that does not fail in passing, if that is one of the first and of the `m` further ones, and
otherwise with the last of them. After each other try it rests, for the delay that this try leads to
with the next number that is drawn. -/
theorem hasTried_run (hj : c.jobs[id]? = some job) (hready : job.stage = .ready 0)
    (hmax : c.backoff.maxRetries = .int m) (hdraws : ∀ k, ∃ x, c.draws k = .real x)
    (hdelays : ∀ k < m.toNat, (∀ i ≤ k, c.FailsInPassing job i) →
      c.backoff.delay k (c.draws (c.drawn + k)) = .ok (delays k)) {steps : Nat}
    (hsteps : c.stepLimit ≤ steps) :
    (∀ j ≤ m.toNat, (∀ i < j, c.FailsInPassing job i) → ¬ c.FailsInPassing job j →
      HasTried c (c.run id steps) id job delays j) ∧
    ((∀ i ≤ m.toNat, c.FailsInPassing job i) →
      HasTried c (c.run id steps) id job delays m.toNat) := by
  have hpatient : ¬ c.backoff.IsPatient := by simp [Backoff.IsPatient, hmax]
  have hallows : ∀ i : Nat, c.backoff.allows i = decide (i < m.toNat) := by
    intro i
    rw [Backoff.allows, hmax, Number.lt_int]
    exact decide_eq_decide.2 (by omega)
  -- Another try may be made exactly while fewer than `m` have been repeated, so every try before the
  -- last one leads to a rest with its own delay.
  have hmade : ∀ last ≤ m.toNat, (∀ i < last, c.FailsInPassing job i) → ∀ i < last,
      c.FailsInPassing job i ∧ c.backoff.allows i ∧
        c.backoff.delay i (c.draws (c.drawn + i)) = .ok (delays i) := by
    intro last hle hfails i hi
    have hlt : i < m.toNat := Nat.lt_of_lt_of_le hi hle
    refine ⟨hfails i hi, by simpa [hallows] using hlt, hdelays i hlt fun k hk => ?_⟩
    exact hfails k (Nat.lt_of_le_of_lt hk hi)
  constructor
  · intro j hle hfails hnot
    exact hasTried_run_of_made hj hready hpatient hdraws (hmade j hle hfails)
      (fun hfail => absurd hfail hnot) hsteps
  · intro hfails
    refine hasTried_run_of_made hj hready hpatient hdraws
      (hmade _ (Nat.le_refl _) fun i hi => hfails i (Nat.le_of_lt hi)) (fun _ => ?_) hsteps
    rw [hallows, decide_eq_false (Nat.lt_irrefl _)]

/-- The first try of a write is broken off when its directories are made, the second when its text is
handed over, and the third finds its way: it is tried three times, and counted. -/
theorem hasTried_run_third : ∃ (c : Cache) (job : Job) (delays : Nat → Number),
    c.backoff.maxRetries = .int 3 ∧ HasTried c (c.run 0 c.stepLimit) 0 job delays 2 ∧
      (c.run 0 c.stepLimit).count = 1 ∧ (c.run 0 c.stepLimit).slept =
        [.real (.ofDecimal false ⟨1, -1⟩), .real (.ofDecimal false ⟨2, -1⟩)] := by
  let job : Job := { path := { parts := ["c", "a"] }, content := "xy" }
  let incident : Incident := { label := "", transient := true, message := "" }
  let c : Cache :=
    { root := { parts := ["c"] }
      jobs := [job]
      faults := fun made _ moment =>
        if made.length = 0 && moment = .directories || made.length = 2 && moment = .filling then
          some { incident, progress := 1 }
        else none
      draws := fun _ => .real (.finite false (1 / 2)) }
  let delays (k : Nat) : Number := ((c.backoff.delay k (c.draws k)).toOption).getD (.int 0)
  have hdelays : ∀ k : Nat, k < 3 → (c.backoff.delay k (c.draws k)).toOption = some (delays k) := by
    decide +kernel
  have hfails : ∀ i < 2, c.FailsInPassing job i := by
    intro i hi
    refine ⟨.incident incident, ?_, rfl⟩
    have htwo : i = 0 ∨ i = 1 := by omega
    rcases htwo with rfl | rfl <;> rfl
  have hdone : (c.tryOutcome job.path job.content 2).isOk := by decide +kernel
  have hnot : ¬ c.FailsInPassing job 2 := by
    rintro ⟨e, he, -⟩
    rw [he] at hdone
    cases hdone
  have htried := (@hasTried_run c 0 job 3 delays rfl rfl rfl (fun _ => ⟨_, rfl⟩)
    (fun k hk _ => by
      show c.backoff.delay k (c.draws (0 + k)) = _
      rw [Nat.zero_add]
      exact Act.eq_ok_of_toOption (hdelays k hk))
    c.stepLimit (Nat.le_refl _)).1 2 (by decide) hfails hnot
  refine ⟨c, job, delays, rfl, htried, ?_, ?_⟩
  · rw [htried.count, hdone]
    rfl
  · rw [htried.slept]
    decide +kernel

end Cache
end SchemaArtifacts
