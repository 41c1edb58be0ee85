import Mathlib.Data.List.Basic
import Mathlib.Data.List.Nodup
import Mathlib.Data.List.Perm.Basic
import SchemaArtifacts.Proofs.Cache.Advance

/-!
# The books of a cache

A cache keeps account of its writes in three places: the write that stands for each path, the paths
known as written, and their count. Each is brought up to date at another moment, so between two
moments they differ; what they never lose is their agreement with the list of all writes.

Every operation does one of four things to the books, and this is all that the later results need to
know about it.

## Main definitions

* `Cache.Books` — what a step can do to the books
* `Cache.Balanced` — the books agree with the writes
* `Cache.placements` — how many writes have put an artifact at a path

## Main results

* `Cache.books_request`, `Cache.books_advance`, `Cache.books_settle`, `Cache.books_cancelWrite` —
  the operations of a cache
* `Cache.Books.balanced` — balanced books stay balanced
* `Cache.Balanced.placements_le_one`, `Cache.Balanced.eq_of_stands` — one write for a path
* `Cache.Balanced.count_of_quiescent`, `Cache.Balanced.mem_pending_iff_of_quiescent` — when nothing
  is on its way, the three accounts are one
-/

namespace SchemaArtifacts

/-- A write stands for its path until the cache has taken note of its failure. -/
def Job.stands (job : Job) : Bool := job.stage.isDone || !job.settled

/-- What stays of a write, whatever is done: its path, its text, its end, and that the end was
noted. -/
structure Job.Later (job job' : Job) : Prop where
  path : job'.path = job.path
  content : job'.content = job.content
  stage : job.stage.inFlight = false → job'.stage = job.stage
  settled : job.settled → job'.settled

theorem Job.Later.refl (job : Job) : job.Later job := ⟨rfl, rfl, fun _ => rfl, fun h => h⟩

theorem Job.Later.trans {job job' job'' : Job} (h : job.Later job') (h' : job'.Later job'') :
    job.Later job'' := by
  refine ⟨h'.path.trans h.path, h'.content.trans h.content, fun hended => ?_,
    fun hs => h'.settled (h.settled hs)⟩
  have hstage := h.stage hended
  rw [h'.stage (by rwa [hstage]), hstage]

/-- A write that is done stays done. -/
theorem Job.Later.isDone {job job' : Job} (h : job.Later job') (hdone : job.stage.isDone) :
    job'.stage.isDone := by
  rwa [h.stage (inFlight_eq_false_of_isDone hdone)]

namespace Cache

/-- A cache in which nothing has happened yet. -/
structure IsFresh (c : Cache) : Prop where
  jobs : c.jobs = []
  pending : c.pending = []
  written : c.written = []
  count : c.count = 0

/-- The books of a cache agree with its writes. -/
structure Balanced (c : Cache) : Prop where
  /-- At most one write stands for a path. -/
  nodup_pending : (c.pending.map Prod.fst).Nodup
  /-- The writes that stand are those that are pending. -/
  mem_pending : ∀ p id, (p, id) ∈ c.pending ↔
    ∃ job : Job, c.jobs[id]? = some job ∧ job.path = p ∧ job.stands
  /-- Only ends are taken note of. -/
  ended : ∀ (id : Nat) (job : Job), c.jobs[id]? = some job → job.settled → job.stage.inFlight = false
  nodup_written : c.written.Nodup
  /-- A path is known as written once a write to it is done and noted. -/
  mem_written : ∀ p, p ∈ c.written ↔
    ∃ id : Nat, ∃ job : Job, c.jobs[id]? = some job ∧ job.path = p ∧ job.stage.isDone ∧ job.settled
  /-- Each write that is done counts once. -/
  count_eq : c.count = c.jobs.countP fun job => job.stage.isDone

/-- What a step can do to the books. -/
inductive Books (c c' : Cache) : Prop where
  /-- Nothing. -/
  | kept (jobs : c'.jobs = c.jobs) (pending : c'.pending = c.pending)
      (written : c'.written = c.written) (count : c'.count = c.count)
  /-- A write begins to stand for a path without one. -/
  | opened (p : AbsolutePath) (content : String) (free : c.pendingJob? p = none)
      (jobs : c'.jobs = c.jobs ++ [{ path := p, content }])
      (pending : c'.pending = (p, c.jobs.length) :: c.pending)
      (written : c'.written = c.written) (count : c'.count = c.count)
  /-- A write in flight comes to another stage. -/
  | moved (id : Nat) (job : Job) (stage : Stage) (there : c.jobs[id]? = some job)
      (inFlight : job.stage.inFlight)
      (jobs : c'.jobs = c.jobs.modify id fun job => { job with stage })
      (pending : c'.pending = c.pending) (written : c'.written = c.written)
      (count : c'.count = c.count + if stage.isDone then 1 else 0)
  /-- The end of a write is noted. -/
  | noted (id : Nat) (job : Job) (there : c.jobs[id]? = some job)
      (ended : job.stage.inFlight = false) (fresh : job.settled = false)
      (jobs : c'.jobs = c.jobs.modify id fun job => { job with settled := true })
      (pending : c'.pending = if job.stage.isDone then c.pending
        else c.pending.filter fun entry => entry.1 ≠ job.path)
      (written : c'.written = if job.stage.isDone then job.path :: c.written.erase job.path
        else c.written)
      (count : c'.count = c.count)

theorem Books.refl (c : Cache) : Books c c := .kept rfl rfl rfl rfl

variable {c c' : Cache} {id : Nat} {job : Job} {stage : Stage}

theorem books_advance (c : Cache) (id : Nat) : Books c (c.advance id) := by
  cases hj : c.jobs[id]? with
  | none =>
    simp only [advance, hj]
    exact .refl c
  | some job =>
    cases hf : job.stage.inFlight with
    | false =>
      rw [advance_of_ended hj hf]
      exact .refl c
    | true =>
      have h := turns_advance hj hf
      exact .moved id job _ hj hf h.jobs h.pending h.written (count_advance hj hf)

theorem books_settle (c : Cache) (id : Nat) : Books c (c.settle id) := by
  unfold settle
  cases hj : c.jobs[id]? with
  | none => exact .refl c
  | some job =>
    dsimp only
    split
    · exact .refl c
    · rename_i hfresh
      simp only [Bool.not_eq_true] at hfresh
      cases hs : job.stage with
      | ended o =>
        have hended : job.stage.inFlight = false := by rw [hs]; rfl
        cases o with
        | ok u => exact .noted id job hj hended hfresh rfl (by rw [hs]; rfl) (by rw [hs]; rfl) rfl
        | error e =>
          exact .noted id job hj hended hfresh rfl (by rw [hs]; rfl) (by rw [hs]; rfl) rfl
      | _ => exact .refl c

theorem books_cancelWrite (c : Cache) (id : Nat) : Books c (c.cancelWrite id) := by
  unfold cancelWrite
  cases hj : c.jobs[id]? with
  | none => exact .refl c
  | some job =>
    dsimp only
    split
    · rename_i hs
      exact .moved id job _ hj (by rw [hs]; rfl) rfl rfl rfl rfl
    · exact .refl c

/-- A new write stands for a path. -/
def open_ (c : Cache) (p : AbsolutePath) (content : String) : Cache :=
  { c with
    jobs := c.jobs ++ [{ path := p, content }]
    pending := (p, c.jobs.length) :: c.pending }

theorem run_request (c : Cache) (a : Address) (content : String) :
    (request a content).run c =
      if a.isLocal then (.error (.localFile a.url), c)
      else match c.locate a.url with
        | .error e => (.error (.name e), c)
        | .ok p => match c.pendingJob? p with
          | some id => (.ok id, c)
          | none => (.ok c.jobs.length, c.open_ p content) := by
  cases hl : a.isLocal with
  | true => simp [request, hl, Act.run_throw]
  | false =>
    cases hp : c.locate a.url with
    | error e => simp [request, hl, Act.run_bind, Act.run_get, Act.run_throw, Act.ofExcept, hp]
    | ok p =>
      cases hj : c.pendingJob? p with
      | some id => simp [request_pending hl hp hj, hj]
      | none =>
        simp [request, hl, Act.run_bind, Act.run_get, Act.run_map, Act.run_modify, Act.ofExcept, hp,
          hj, open_, Except.map]

theorem books_request (c : Cache) (a : Address) (content : String) :
    Books c ((request a content).run c).2 := by
  rw [run_request]
  split
  · exact .refl c
  · split
    · exact .refl c
    · split
      · exact .refl c
      · exact .opened _ content ‹_› rfl rfl rfl rfl

theorem IsFresh.balanced (h : c.IsFresh) : c.Balanced := by
  obtain ⟨hj, hp, hw, hc⟩ := h
  constructor <;> simp [hj, hp, hw, hc]

private theorem countP_modify {α : Type} {p : α → Bool} {f : α → α} {as : List α} {i : Nat} {a : α}
    (h : as[i]? = some a) :
    (as.modify i f).countP p + (if p a then 1 else 0) =
      as.countP p + (if p (f a) then 1 else 0) := by
  induction as generalizing i with
  | nil => cases h
  | cons b as ih =>
    cases i with
    | zero =>
      cases h
      simp only [List.modify_zero_cons, List.countP_cons]
      omega
    | succ i =>
      have := ih (i := i) h
      simp only [List.modify_succ_cons, List.countP_cons]
      omega

theorem Balanced.of_kept (h : c.Balanced) (jobs : c'.jobs = c.jobs)
    (pending : c'.pending = c.pending) (written : c'.written = c.written)
    (count : c'.count = c.count) : c'.Balanced := by
  obtain ⟨h1, h2, h3, h4, h5, h6⟩ := h
  constructor <;> simp only [jobs, pending, written, count] <;> assumption

theorem pendingJob?_eq_none_iff {p : AbsolutePath} :
    c.pendingJob? p = none ↔ p ∉ c.pending.map Prod.fst := by
  rw [pendingJob?, List.lookup_eq_none_iff]
  constructor
  · intro h hmem
    obtain ⟨entry, hentry, rfl⟩ := List.mem_map.1 hmem
    simpa using h entry hentry
  · intro h entry hentry
    refine bne_iff_ne.2 fun hp => h ?_
    exact List.mem_map.2 ⟨entry, hentry, hp.symm⟩

theorem getElem?_jobs_open_ {p : AbsolutePath} {content : String} :
    (c.open_ p content).jobs[id]? = some job ↔
      c.jobs[id]? = some job ∨ id = c.jobs.length ∧ job = { path := p, content } := by
  simp only [open_, List.getElem?_append, List.getElem?_cons]
  split
  · rename_i hlt
    constructor
    · exact Or.inl
    · rintro (h | ⟨rfl, -⟩)
      · exact h
      · exact absurd hlt (Nat.lt_irrefl _)
  · rename_i hge
    have hnone : c.jobs[id]? = none := List.getElem?_eq_none (Nat.not_lt.1 hge)
    simp only [hnone, reduceCtorEq, false_or]
    split
    · have : id = c.jobs.length := by omega
      simp [this, eq_comm]
    · have : id ≠ c.jobs.length := by omega
      simp [this]

theorem Balanced.open_ (h : c.Balanced) {p : AbsolutePath} (content : String)
    (free : c.pendingJob? p = none) : (c.open_ p content).Balanced := by
  have hfree := pendingJob?_eq_none_iff.1 free
  constructor
  case nodup_pending => exact List.nodup_cons.2 ⟨hfree, h.nodup_pending⟩
  case mem_pending =>
    intro q id
    simp only [getElem?_jobs_open_]
    show (q, id) ∈ (p, c.jobs.length) :: c.pending ↔ _
    rw [List.mem_cons, h.mem_pending]
    constructor
    · rintro (heq | ⟨job, hj, hq, hs⟩)
      · cases heq
        exact ⟨_, Or.inr ⟨rfl, rfl⟩, rfl, rfl⟩
      · exact ⟨job, Or.inl hj, hq, hs⟩
    · rintro ⟨job, hj | ⟨rfl, rfl⟩, hq, hs⟩
      · exact Or.inr ⟨job, hj, hq, hs⟩
      · exact Or.inl (by rw [← hq])
  case ended =>
    intro id job hj hs
    rcases getElem?_jobs_open_.1 hj with hj | ⟨-, rfl⟩
    · exact h.ended id job hj hs
    · cases hs
  case nodup_written => exact h.nodup_written
  case mem_written =>
    intro q
    simp only [getElem?_jobs_open_]
    show q ∈ c.written ↔ _
    rw [h.mem_written]
    constructor
    · rintro ⟨id, job, hj, hrest⟩
      exact ⟨id, job, Or.inl hj, hrest⟩
    · rintro ⟨id, job, hj | ⟨-, rfl⟩, hq, hd, hs⟩
      · exact ⟨id, job, hj, hq, hd, hs⟩
      · cases hs
  case count_eq => simp [Cache.open_, h.count_eq, Stage.isDone]

/-- The writes after one of them has changed. -/
theorem getElem?_modify_jobs {f : Job → Job} {other : Nat} {job' : Job}
    (hj : c.jobs[id]? = some job) (jobs : c'.jobs = c.jobs.modify id f) :
    c'.jobs[other]? = some job' ↔
      other ≠ id ∧ c.jobs[other]? = some job' ∨ other = id ∧ job' = f job := by
  rw [jobs, List.getElem?_modify]
  by_cases h : id = other
  · subst h
    simp [hj, eq_comm]
  · simp [h, Ne.symm h]

/-- No write is forgotten. -/
theorem Books.exists_later (hb : Books c c') (hj : c.jobs[id]? = some job) :
    ∃ job', c'.jobs[id]? = some job' ∧ job.Later job' := by
  cases hb with
  | kept jobs => exact ⟨job, by rw [jobs, hj], .refl job⟩
  | opened p content _ jobs =>
    refine ⟨job, ?_, .refl job⟩
    rw [jobs, List.getElem?_append_left (List.getElem?_eq_some_iff.1 hj).1, hj]
  | moved other job'' stage there inFlight jobs =>
    by_cases ho : id = other
    · subst ho
      cases hj.symm.trans there
      refine ⟨_, (getElem?_modify_jobs hj jobs).2 (Or.inr ⟨rfl, rfl⟩), rfl, rfl, ?_, fun h => h⟩
      intro hended
      rw [inFlight] at hended
      cases hended
    · exact ⟨job, (getElem?_modify_jobs there jobs).2 (Or.inl ⟨ho, hj⟩), .refl job⟩
  | noted other job'' there _ _ jobs =>
    by_cases ho : id = other
    · subst ho
      cases hj.symm.trans there
      exact ⟨_, (getElem?_modify_jobs hj jobs).2 (Or.inr ⟨rfl, rfl⟩), rfl, rfl, fun _ => rfl,
        fun _ => rfl⟩
    · exact ⟨job, (getElem?_modify_jobs there jobs).2 (Or.inl ⟨ho, hj⟩), .refl job⟩

/-- An artifact that was put at a path stays one that was. -/
theorem Books.exists_done (hb : Books c c') {p : AbsolutePath}
    (h : ∃ (id : Nat) (job : Job), c.jobs[id]? = some job ∧ job.path = p ∧ job.stage.isDone) :
    ∃ (id : Nat) (job : Job), c'.jobs[id]? = some job ∧ job.path = p ∧ job.stage.isDone := by
  obtain ⟨id, job, hj, hp, hdone⟩ := h
  obtain ⟨job', hj', hlater⟩ := hb.exists_later hj
  exact ⟨id, job', hj', hlater.path.trans hp, hlater.isDone hdone⟩

/-- A change of a write that leaves its path alone brings no path. -/
theorem forall_path_modify {f : Job → Job} {P : AbsolutePath → Prop} (hj : c.jobs[id]? = some job)
    (hpath : (f job).path = job.path) (jobs : c'.jobs = c.jobs.modify id f)
    (h : ∀ job ∈ c.jobs, P job.path) : ∀ job ∈ c'.jobs, P job.path := by
  intro job' hmem
  obtain ⟨other, hj'⟩ := List.getElem?_of_mem hmem
  rcases (getElem?_modify_jobs hj jobs).1 hj' with ⟨-, hj'⟩ | ⟨-, rfl⟩
  · exact h job' (List.mem_of_getElem? hj')
  · rw [hpath]
    exact h job (List.mem_of_getElem? hj)

theorem Balanced.move (h : c.Balanced) (hj : c.jobs[id]? = some job) (hf : job.stage.inFlight)
    (jobs : c'.jobs = c.jobs.modify id fun job => { job with stage })
    (pending : c'.pending = c.pending) (written : c'.written = c.written)
    (count : c'.count = c.count + if stage.isDone then 1 else 0) : c'.Balanced := by
  have hopen : job.settled = false := by
    by_contra hs
    have := h.ended id job hj (by simpa using hs)
    rw [hf] at this
    cases this
  have hnot : job.stage.isDone = false := isDone_eq_false_of_inFlight hf
  constructor
  case nodup_pending =>
    rw [pending]
    exact h.nodup_pending
  case mem_pending =>
    intro p other
    simp only [getElem?_modify_jobs hj jobs]
    rw [pending, h.mem_pending]
    by_cases ho : other = id
    · subst ho
      simp [hj, Job.stands, hopen]
    · simp [ho]
  case ended =>
    intro other job' hj' hs
    rcases (getElem?_modify_jobs hj jobs).1 hj' with ⟨-, hj'⟩ | ⟨-, rfl⟩
    · exact h.ended other job' hj' hs
    · exact absurd hs (by simp [hopen])
  case nodup_written =>
    rw [written]
    exact h.nodup_written
  case mem_written =>
    intro p
    simp only [getElem?_modify_jobs hj jobs]
    rw [written, h.mem_written]
    constructor
    · rintro ⟨other, job', hj', hp, hd, hs⟩
      refine ⟨other, job', Or.inl ⟨?_, hj'⟩, hp, hd, hs⟩
      rintro rfl
      rw [hj] at hj'
      cases hj'
      rw [hopen] at hs
      cases hs
    · rintro ⟨other, job', ⟨-, hj'⟩ | ⟨-, rfl⟩, hp, hd, hs⟩
      · exact ⟨other, job', hj', hp, hd, hs⟩
      · exact absurd hs (by simp [hopen])
  case count_eq =>
    have := countP_modify (p := fun job : Job => job.stage.isDone)
      (f := fun job => { job with stage }) hj
    simp only [hnot, Bool.false_eq_true, ↓reduceIte, Nat.add_zero] at this
    rw [count, jobs, h.count_eq, this]

/-- At most one write is pending for a path. -/
theorem Balanced.pending_unique (h : c.Balanced) {p : AbsolutePath} {other : Nat}
    (hi : (p, id) ∈ c.pending) (ho : (p, other) ∈ c.pending) : other = id :=
  congrArg Prod.snd (List.inj_on_of_nodup_map h.nodup_pending ho hi rfl)

theorem Balanced.note (h : c.Balanced) (hj : c.jobs[id]? = some job)
    (hended : job.stage.inFlight = false) (hopen : job.settled = false)
    (jobs : c'.jobs = c.jobs.modify id fun job => { job with settled := true })
    (pending : c'.pending = if job.stage.isDone then c.pending
      else c.pending.filter fun entry => entry.1 ≠ job.path)
    (written : c'.written = if job.stage.isDone then job.path :: c.written.erase job.path
      else c.written)
    (count : c'.count = c.count) : c'.Balanced := by
  have hmem : (job.path, id) ∈ c.pending :=
    (h.mem_pending _ _).2 ⟨job, hj, rfl, by simp [Job.stands, hopen]⟩
  constructor
  case nodup_pending =>
    rw [pending]
    split
    · exact h.nodup_pending
    · exact h.nodup_pending.sublist (List.filter_sublist.map _)
  case mem_pending =>
    intro p other
    simp only [getElem?_modify_jobs hj jobs]
    -- An entry leaves the list exactly when it is the one of a write that has failed.
    have hleft : (p, other) ∈ c'.pending ↔
        (p, other) ∈ c.pending ∧ (other = id → job.stage.isDone) := by
      rw [pending]
      split
      · simp [*]
      · rename_i hnot
        rw [List.mem_filter]
        refine and_congr_right fun hp => ?_
        simp only [ne_eq, decide_not, Bool.not_eq_true', decide_eq_false_iff_not, hnot,
          Bool.false_eq_true, imp_false]
        refine not_congr ⟨?_, ?_⟩
        · rintro rfl
          exact h.pending_unique hmem hp
        · rintro rfl
          obtain ⟨job', hj', rfl, -⟩ := (h.mem_pending _ _).1 hp
          rw [hj] at hj'
          cases hj'
          rfl
    rw [hleft, h.mem_pending]
    by_cases ho : other = id
    · subst ho
      simp [hj, Job.stands, hopen]
    · simp [ho]
  case ended =>
    intro other job' hj' hs
    rcases (getElem?_modify_jobs hj jobs).1 hj' with ⟨-, hj'⟩ | ⟨-, rfl⟩
    · exact h.ended other job' hj' hs
    · exact hended
  case nodup_written =>
    rw [written]
    split
    · exact List.nodup_cons.2 ⟨h.nodup_written.not_mem_erase, h.nodup_written.erase _⟩
    · exact h.nodup_written
  case mem_written =>
    intro p
    simp only [getElem?_modify_jobs hj jobs]
    have hadded : p ∈ c'.written ↔ p ∈ c.written ∨ p = job.path ∧ job.stage.isDone := by
      rw [written]
      split
      · rename_i hd
        rw [List.mem_cons, h.nodup_written.mem_erase_iff]
        by_cases hp : p = job.path <;> simp [hp, hd]
      · simp [*]
    rw [hadded, h.mem_written]
    constructor
    · rintro (⟨other, job', hj', hp, hd, hs⟩ | ⟨rfl, hd⟩)
      · refine ⟨other, job', Or.inl ⟨?_, hj'⟩, hp, hd, hs⟩
        rintro rfl
        rw [hj] at hj'
        cases hj'
        rw [hopen] at hs
        cases hs
      · exact ⟨id, _, Or.inr ⟨rfl, rfl⟩, rfl, hd, rfl⟩
    · rintro ⟨other, job', ⟨-, hj'⟩ | ⟨-, rfl⟩, hp, hd, hs⟩
      · exact Or.inl ⟨other, job', hj', hp, hd, hs⟩
      · exact Or.inr ⟨hp.symm, hd⟩
  case count_eq =>
    have := countP_modify (p := fun job : Job => job.stage.isDone)
      (f := fun job => { job with settled := true }) hj
    rw [count, jobs, h.count_eq]
    exact (Nat.add_right_cancel this).symm

/-- Balanced books stay balanced. -/
theorem Books.balanced (hb : Books c c') (h : c.Balanced) : c'.Balanced := by
  cases hb with
  | kept jobs pending written count => exact h.of_kept jobs pending written count
  | opened p content free jobs pending written count =>
    exact (h.open_ content free).of_kept jobs pending written count
  | moved id job stage there inFlight jobs pending written count =>
    exact h.move there inFlight jobs pending written count
  | noted id job there ended fresh jobs pending written count =>
    exact h.note there ended fresh jobs pending written count

/-- Two writes that stand for the same path are one. -/
theorem Balanced.eq_of_stands (h : c.Balanced) {other : Nat} {job' : Job}
    (hj : c.jobs[id]? = some job) (hj' : c.jobs[other]? = some job') (hp : job'.path = job.path)
    (hs : job.stands) (hs' : job'.stands) : other = id :=
  h.pending_unique ((h.mem_pending _ _).2 ⟨job, hj, rfl, hs⟩)
    ((h.mem_pending _ _).2 ⟨job', hj', hp, hs'⟩)

/-- The write that is pending for a path is one of this path, and stands. -/
theorem Balanced.exists_of_pendingJob? (h : c.Balanced) {p : AbsolutePath}
    (hp : c.pendingJob? p = some id) : ∃ job, c.jobs[id]? = some job ∧ job.path = p ∧ job.stands := by
  refine (h.mem_pending p id).1 ?_
  rw [pendingJob?, List.lookup_eq_some_iff] at hp
  obtain ⟨before, after, heq, -⟩ := hp
  rw [heq]
  exact List.mem_append_right _ List.mem_cons_self

/-- No write to a path stands if none is pending for it. -/
theorem Balanced.not_stands_of_pendingJob? (h : c.Balanced) {p : AbsolutePath}
    (hnone : c.pendingJob? p = none) (hj : c.jobs[id]? = some job) (hp : job.path = p) :
    ¬ job.stands := by
  intro hs
  have hmem := (h.mem_pending p id).2 ⟨job, hj, hp, hs⟩
  exact pendingJob?_eq_none_iff.1 hnone (List.mem_map.2 ⟨_, hmem, rfl⟩)

theorem Balanced.stands_of_inFlight (h : c.Balanced) (hj : c.jobs[id]? = some job)
    (hf : job.stage.inFlight) : job.stands := by
  by_contra hs
  simp only [Job.stands, Bool.or_eq_true, Bool.not_eq_true', not_or, Bool.not_eq_false] at hs
  have := h.ended id job hj hs.2
  rw [hf] at this
  cases this

/-- Writes that are done have different paths. -/
theorem Balanced.pairwise_done (h : c.Balanced) :
    c.jobs.Pairwise fun a b => a.stage.isDone → b.stage.isDone → a.path ≠ b.path := by
  rw [List.pairwise_iff_getElem]
  intro i j hi hj hlt ha hb hp
  have := h.eq_of_stands (List.getElem?_eq_getElem hi) (List.getElem?_eq_getElem hj) hp.symm
    (by simp [Job.stands, ha]) (by simp [Job.stands, hb])
  omega

/-- How many writes have put an artifact at a path. -/
def placements (c : Cache) (p : AbsolutePath) : Nat :=
  c.jobs.countP fun job => job.stage.isDone && job.path = p

theorem Balanced.placements_le_one (h : c.Balanced) (p : AbsolutePath) : c.placements p ≤ 1 := by
  unfold placements
  have hpair := h.pairwise_done
  generalize c.jobs = jobs at hpair
  -- Two writes that are done have different paths, so behind the first one for this path there is
  -- no other.
  induction hpair with
  | nil => exact Nat.zero_le _
  | @cons a as ha _ ih =>
    rw [List.countP_cons]
    split
    · rename_i hp
      simp only [Bool.and_eq_true, decide_eq_true_eq] at hp
      have hnone : as.countP (fun job => job.stage.isDone && job.path = p) = 0 := by
        rw [List.countP_eq_zero]
        intro b hb hp'
        simp only [Bool.and_eq_true, decide_eq_true_eq] at hp'
        exact ha b hb hp.1 hp'.1 (hp.2.trans hp'.2.symm)
      omega
    · exact ih

/-- What puts no artifact in its place changes no placement, and what puts one there adds it. -/
theorem placements_modify {f : Job → Job} {p : AbsolutePath} (hj : c.jobs[id]? = some job)
    (hpath : (f job).path = job.path) (jobs : c'.jobs = c.jobs.modify id f) :
    c'.placements p + (if job.stage.isDone && job.path = p then 1 else 0) =
      c.placements p + if (f job).stage.isDone && job.path = p then 1 else 0 := by
  have h := countP_modify (p := fun job : Job => job.stage.isDone && job.path = p) (f := f) hj
  rw [hpath] at h
  rw [placements, placements, jobs]
  exact h

/-- Artifacts that are in their places are not taken back. -/
theorem Books.placements_le (hb : Books c c') (p : AbsolutePath) :
    c.placements p ≤ c'.placements p := by
  cases hb with
  | kept jobs =>
    exact Nat.le_of_eq (by rw [placements, placements, jobs])
  | opened q content _ jobs =>
    rw [placements, placements, jobs, List.countP_append]
    exact Nat.le_add_right _ _
  | moved id job stage there inFlight jobs =>
    have h := placements_modify (p := p) there rfl jobs
    have hnot : job.stage.isDone = false := isDone_eq_false_of_inFlight inFlight
    simp only [hnot, Bool.false_and, Bool.false_eq_true, ↓reduceIte, Nat.add_zero] at h
    omega
  | noted id job there _ _ jobs =>
    have h := placements_modify (p := p) there rfl jobs
    exact Nat.le_of_eq (Nat.add_right_cancel h).symm

/-- A write that was in flight and is done has put one more artifact in its place. -/
theorem Books.placements_lt (hb : Books c c') {job' : Job} (hj : c.jobs[id]? = some job)
    (hf : job.stage.inFlight) (hj' : c'.jobs[id]? = some job') (hd : job'.stage.isDone) :
    c.placements job.path < c'.placements job.path := by
  have hnot : job.stage.isDone = false := isDone_eq_false_of_inFlight hf
  have hne : job' ≠ job := by
    rintro rfl
    rw [hnot] at hd
    cases hd
  cases hb with
  | kept jobs =>
    rw [jobs, hj] at hj'
    exact absurd (Option.some.inj hj').symm hne
  | opened q content _ jobs =>
    rw [jobs, List.getElem?_append_left (List.getElem?_eq_some_iff.1 hj).1, hj] at hj'
    exact absurd (Option.some.inj hj').symm hne
  | moved other job'' stage there _ jobs =>
    rcases (getElem?_modify_jobs there jobs).1 hj' with ⟨-, hj''⟩ | ⟨rfl, rfl⟩
    · rw [hj] at hj''
      exact absurd (Option.some.inj hj'').symm hne
    · rw [hj] at there
      cases there
      have h := placements_modify (p := job.path) hj rfl jobs
      have hd' : stage.isDone := hd
      simp only [hnot, hd', Bool.false_and, Bool.false_eq_true, ↓reduceIte, Bool.true_and,
        decide_true] at h
      omega
  | noted other job'' there ended _ jobs =>
    rcases (getElem?_modify_jobs there jobs).1 hj' with ⟨-, hj''⟩ | ⟨rfl, rfl⟩
    · rw [hj] at hj''
      exact absurd (Option.some.inj hj'').symm hne
    · rw [hj] at there
      cases there
      rw [hf] at ended
      cases ended

theorem Balanced.perm_written (h : c.Balanced) (hq : c.Quiescent) :
    c.written.Perm ((c.jobs.filter fun job => job.stage.isDone).map Job.path) := by
  refine (List.perm_ext_iff_of_nodup h.nodup_written ?_).2 fun p => ?_
  · rw [List.Nodup, List.pairwise_map, List.pairwise_filter]
    exact h.pairwise_done
  · rw [h.mem_written, List.mem_map]
    constructor
    · rintro ⟨id, job, hj, hp, hd, -⟩
      exact ⟨job, List.mem_filter.2 ⟨List.mem_of_getElem? hj, hd⟩, hp⟩
    · rintro ⟨job, hj, hp⟩
      obtain ⟨hmem, hd⟩ := List.mem_filter.1 hj
      obtain ⟨id, hid⟩ := List.getElem?_of_mem hmem
      exact ⟨id, job, hid, hp, hd, (hq job hmem).2⟩

/-- When every write has ended and is noted, the count is the number of paths known as written. -/
theorem Balanced.count_of_quiescent (h : c.Balanced) (hq : c.Quiescent) :
    c.count = c.written.length := by
  rw [(h.perm_written hq).length_eq, List.length_map, h.count_eq, List.countP_eq_length_filter]

/-- When every write has ended and is noted, the paths with a pending write are those known as
written. -/
theorem Balanced.mem_pending_iff_of_quiescent (h : c.Balanced) (hq : c.Quiescent)
    (p : AbsolutePath) : p ∈ c.pending.map Prod.fst ↔ p ∈ c.written := by
  rw [h.mem_written, List.mem_map]
  constructor
  · rintro ⟨⟨q, id⟩, hmem, rfl⟩
    obtain ⟨job, hj, hp, hs⟩ := (h.mem_pending _ _).1 hmem
    have hset := (hq job (List.mem_of_getElem? hj)).2
    exact ⟨id, job, hj, hp, by simpa [Job.stands, hset] using hs, hset⟩
  · rintro ⟨id, job, hj, hp, hd, -⟩
    exact ⟨(p, id), (h.mem_pending _ _).2 ⟨job, hj, hp, by simp [Job.stands, hd]⟩, rfl⟩

end Cache
end SchemaArtifacts
