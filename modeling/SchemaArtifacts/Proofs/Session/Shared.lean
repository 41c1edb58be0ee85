import SchemaArtifacts.Proofs.Session.Serving

/-!
# Writes are shared

Texts are asked for together while nothing is on its way. Whoever asks for a path that was written is
led to the write that is done; the first who asks for another path begins a write with its own text, and
those who ask for the path later join it. From then on the writes take their steps, and each caller is
served with the end of the write that it was led to.

## Main definitions

* `Cache.orders` — the paths of the writes, and their texts
* `Cache.wanted` — the stores that are not refused, with their paths
* `Cache.Firsts` — of the stores for each path that was not written, the first
* `Cache.Asked` — texts have been asked for, and no write has taken a step
* `Caller.Stage.Answers` — how a caller stands to the write for its address
* `Session.Shares` — what holds of stores that were started together

## Main results

* `Cache.Asked.stepAll` — asking begins the first stores
* `Session.shares_callAll` — so it is when all have asked
* `Session.Shares.playAll` — and so it stays
-/

namespace SchemaArtifacts

open Cache Relation

namespace Cache

variable {c d d' : Cache} {a : Address} {content : String} {path : AbsolutePath} {id : Nat} {job : Job}
  {stores : List (Address × String)} {news : List (AbsolutePath × String)} {e : Failure}

/-! ## What is to be written -/

/-- The paths of the writes, and their texts. -/
def orders (c : Cache) : List (AbsolutePath × String) := c.jobs.map fun job => (job.path, job.content)

/-- The stores that are not refused, with their paths. -/
def wanted (c : Cache) (stores : List (Address × String)) : List (AbsolutePath × String) :=
  stores.filterMap fun store => (c.target store.1).toOption.map fun path => (path, store.2)

/-- Of the stores for each path that was not written, the first. -/
def Firsts (c : Cache) (stores : List (Address × String)) (news : List (AbsolutePath × String)) :
    Prop :=
  ∀ path, news.filter (·.1 = path) =
    if path ∈ c.written then [] else ((c.wanted stores).filter (·.1 = path)).take 1

theorem target_congr (h : d.root = c.root) (a : Address) : d.target a = c.target a := by
  simp only [target, locate, h]

theorem wanted_concat_of_error (refusal : c.target a = .error e) :
    c.wanted (stores ++ [(a, content)]) = c.wanted stores := by
  simp [wanted, refusal, Except.toOption]

theorem wanted_concat_of_ok (aim : c.target a = .ok path) :
    c.wanted (stores ++ [(a, content)]) = c.wanted stores ++ [(path, content)] := by
  simp [wanted, aim, Except.toOption]

/-- A further store for a path that is known already. -/
theorem Firsts.again (h : c.Firsts stores news) (aim : c.target a = .ok path) (content : String)
    (hknown : path ∉ c.written → path ∈ news.map Prod.fst) :
    c.Firsts (stores ++ [(a, content)]) news := by
  intro other
  rw [h other, wanted_concat_of_ok aim, List.filter_append]
  split
  · rfl
  · rename_i hnew
    by_cases heq : path = other
    · subst heq
      have hmem : (news.filter (·.1 = path)) ≠ [] := by
        obtain ⟨entry, hentry, rfl⟩ := List.mem_map.1 (hknown hnew)
        exact List.ne_nil_of_mem (List.mem_filter.2 ⟨hentry, by simp⟩)
      rw [h path, if_neg hnew] at hmem
      have hlength : 1 ≤ ((c.wanted stores).filter (·.1 = path)).length := by
        refine List.length_pos_iff.2 fun hnil => hmem ?_
        rw [hnil, List.take_nil]
      rw [List.take_append_of_le_length hlength]
    · simp [heq]

/-- The first store for a path. -/
theorem Firsts.first (h : c.Firsts stores news) (aim : c.target a = .ok path) (content : String)
    (hnew : path ∉ c.written) (hfirst : path ∉ news.map Prod.fst) :
    c.Firsts (stores ++ [(a, content)]) (news ++ [(path, content)]) := by
  intro other
  rw [List.filter_append, h other, wanted_concat_of_ok aim, List.filter_append]
  by_cases heq : path = other
  · subst heq
    have hnone : news.filter (·.1 = path) = [] := by
      refine List.filter_eq_nil_iff.2 fun entry hentry hp => hfirst ?_
      exact List.mem_map.2 ⟨entry, hentry, by simpa using hp⟩
    rw [h path, if_neg hnew, List.take_eq_nil_iff] at hnone
    have hnone' := hnone.resolve_left one_ne_zero
    simp [hnew, hnone']
  · simp [heq]

theorem orders_open_ (c : Cache) (path : AbsolutePath) (content : String) :
    (c.open_ path content).orders = c.orders ++ [(path, content)] := by
  simp [orders, open_]

theorem getElem?_news_of_orders (h : d.orders = c.orders ++ news) {id : Nat} {job : Job}
    (hge : c.jobs.length ≤ id) (hj : d.jobs[id]? = some job) :
    news[id - c.jobs.length]? = some (job.path, job.content) := by
  have hlength : c.orders.length = c.jobs.length := List.length_map _
  have horder : d.orders[id]? = some (job.path, job.content) := by
    rw [orders, List.getElem?_map, hj]
    rfl
  rwa [h, List.getElem?_append_right (by rwa [hlength]), hlength] at horder

/-- The writes that are new have the new orders. -/
theorem exists_job_iff_of_orders (h : d.orders = c.orders ++ news) {order : AbsolutePath × String} :
    (∃ id job, c.jobs.length ≤ id ∧ d.jobs[id]? = some job ∧ (job.path, job.content) = order) ↔
      order ∈ news := by
  have hlength : c.orders.length = c.jobs.length := List.length_map _
  constructor
  · rintro ⟨id, job, hge, hj, rfl⟩
    exact List.mem_of_getElem? (getElem?_news_of_orders h hge hj)
  · intro hmem
    obtain ⟨k, hk⟩ := List.getElem?_of_mem hmem
    have horder : d.orders[c.orders.length + k]? = some order := by
      rw [h, List.getElem?_append_right (Nat.le_add_right _ _), Nat.add_sub_cancel_left, hk]
    rw [orders, List.getElem?_map, Option.map_eq_some_iff] at horder
    obtain ⟨job, hj, hjob⟩ := horder
    exact ⟨c.orders.length + k, job, by omega, hj, hjob⟩

theorem length_le_of_orders (h : d.orders = c.orders ++ news) : c.jobs.length ≤ d.jobs.length := by
  have hlength := congrArg List.length h
  simp only [orders, List.length_map, List.length_append] at hlength
  omega

/-! ## Asking -/

/-- The write that a text for a path was led to: one that is done if the path was written, and a new one
if not. -/
structure IsLedTo (c d : Cache) (path : AbsolutePath) (id : Nat) (job : Job) : Prop where
  there : d.jobs[id]? = some job
  path_eq : job.path = path
  known : path ∈ c.written → job.stage.isDone
  fresh : path ∉ c.written → c.jobs.length ≤ id

theorem IsLedTo.operation (h : IsLedTo c d path id job) (hop : d.Operation d') :
    ∃ job', IsLedTo c d' path id job' ∧ job.Later job' := by
  obtain ⟨job', hj', hlater⟩ := hop.books.exists_later h.there
  exact ⟨job', ⟨hj', hlater.path.trans h.path_eq, fun hw => hlater.isDone (h.known hw), h.fresh⟩,
    hlater⟩

/-- Texts have been asked for, and no write has taken a step. -/
structure Asked (c : Cache) (stores : List (Address × String)) (d : Cache) : Prop where
  balanced : d.Balanced
  root : d.root = c.root
  written : d.written = c.written
  attempts : d.attempts = c.attempts
  old : ∀ (id : Nat) (job : Job), c.jobs[id]? = some job → d.jobs[id]? = some job
  fresh : ∀ (id : Nat) (job : Job), c.jobs.length ≤ id → d.jobs[id]? = some job →
    job.stage = .ready 0 ∧ job.settled = false
  orders : ∃ news, d.orders = c.orders ++ news ∧ c.Firsts stores news

theorem Balanced.asked (h : c.Balanced) : c.Asked [] c where
  balanced := h
  root := rfl
  written := rfl
  attempts := rfl
  old _ _ hj := hj
  fresh id job hge hj := absurd (List.getElem?_eq_some_iff.1 hj).1 (Nat.not_lt.2 hge)
  orders := ⟨[], (List.append_nil _).symm, fun path => by simp [wanted]⟩

/-- A write that stands for a path is one that is done, or a new one. -/
theorem Asked.isLedTo (h : c.Asked stores d) (hc : c.Balanced) (quiet : c.Quiescent)
    (hj : d.jobs[id]? = some job) (hstands : job.stands) : c.IsLedTo d job.path id job where
  there := hj
  path_eq := rfl
  known hw := by
    rw [← h.written, h.balanced.mem_written] at hw
    obtain ⟨other, job', hj', hp', hdone, -⟩ := hw
    obtain rfl := h.balanced.eq_of_stands hj hj' hp' hstands (by simp [Job.stands, hdone])
    cases hj.symm.trans hj'
    exact hdone
  fresh hnew := by
    by_contra hlt
    rw [Nat.not_le] at hlt
    have hold := List.getElem?_eq_getElem hlt
    cases hj.symm.trans (h.old id _ hold)
    have hsettled := (quiet _ (List.getElem_mem hlt)).2
    have hdone : (c.jobs[id]).stage.isDone := by simpa [Job.stands, hsettled] using hstands
    exact hnew ((hc.mem_written _).2 ⟨id, _, hold, rfl, hdone, hsettled⟩)

theorem Asked.refuse (h : c.Asked stores d) (refusal : c.target a = .error e) (content : String) :
    c.Asked (stores ++ [(a, content)]) d := by
  obtain ⟨news, horders, hfirsts⟩ := h.orders
  refine { h with orders := ⟨news, horders, fun path => ?_⟩ }
  rw [wanted_concat_of_error refusal]
  exact hfirsts path

/-- Whoever asks for a path joins the write that stands for it, or begins one. -/
theorem Asked.seek (h : c.Asked stores d) (hc : c.Balanced) (quiet : c.Quiescent)
    (aim : c.target a = .ok path) (content : String) :
    c.Asked (stores ++ [(a, content)]) (d.seek path content).1 ∧
      ∃ job, c.IsLedTo (d.seek path content).1 path (d.seek path content).2 job := by
  obtain ⟨news, horders, hfirsts⟩ := h.orders
  unfold Cache.seek
  cases hpending : d.pendingJob? path with
  | some id =>
    obtain ⟨job, hj, rfl, hstands⟩ := h.balanced.exists_of_pendingJob? hpending
    have hled := h.isLedTo hc quiet hj hstands
    refine ⟨{ h with orders := ⟨news, horders, hfirsts.again aim content fun hnew => ?_⟩ }, job, hled⟩
    have hmem := (exists_job_iff_of_orders horders).1 ⟨id, job, hled.fresh hnew, hj, rfl⟩
    exact List.mem_map.2 ⟨_, hmem, rfl⟩
  | none =>
    have hnot := fun {id : Nat} {job : Job} (hj : d.jobs[id]? = some job) =>
      h.balanced.not_stands_of_pendingJob? hpending hj
    have hnew : path ∉ c.written := by
      intro hw
      rw [← h.written, h.balanced.mem_written] at hw
      obtain ⟨id, job, hj, hp, hdone, -⟩ := hw
      exact hnot hj hp (by simp [Job.stands, hdone])
    have hfirst : path ∉ news.map Prod.fst := by
      intro hmem
      obtain ⟨order, horder, rfl⟩ := List.mem_map.1 hmem
      obtain ⟨id, job, hge, hj, rfl⟩ := (exists_job_iff_of_orders horders).2 horder
      exact hnot hj rfl (by simp [Job.stands, (h.fresh id job hge hj).2])
    refine ⟨⟨h.balanced.open_ content hpending, h.root, h.written, h.attempts, fun id job hj => ?_,
      fun id job hge hj => ?_, news ++ [(path, content)], ?_, hfirsts.first aim content hnew hfirst⟩,
      _, getElem?_jobs_open_.2 (Or.inr ⟨rfl, rfl⟩), rfl, fun hw => absurd hw hnew,
      fun _ => length_le_of_orders horders⟩
    · exact getElem?_jobs_open_.2 (Or.inl (h.old id job hj))
    · rcases getElem?_jobs_open_.1 hj with hj | ⟨-, rfl⟩
      · exact h.fresh id job hge hj
      · exact ⟨rfl, rfl⟩
    · rw [orders_open_, horders, List.append_assoc]

end Cache

theorem Stage.exists_ended_of_inFlight {stage : Stage} (h : stage.inFlight = false) :
    ∃ result, stage = .ended result := by
  cases stage with
  | ended result => exact ⟨result, rfl⟩
  | _ => cases h

namespace Caller

variable {c d d' : Cache} {a : Address} {path : AbsolutePath} {id : Nat} {job : Job} {stage : Stage}
  {caller : Caller} {stores before : List (Address × String)}

/-- A caller was refused, waits for the write that it was led to, or was served with its end. -/
inductive Stage.Answers (c d : Cache) (a : Address) : Stage → Prop where
  | refused (e : Failure) (refusal : c.target a = .error e) : Answers c d a (.served (.error e))
  | waiting (path : AbsolutePath) (id : Nat) (job : Job) (aim : c.target a = .ok path)
      (led : c.IsLedTo d path id job) : Answers c d a (.waiting id)
  | served (path : AbsolutePath) (id : Nat) (job : Job) (result : Except Failure Unit)
      (aim : c.target a = .ok path) (led : c.IsLedTo d path id job)
      (ended : job.stage = .ended result) : Answers c d a (.served (result.map fun _ => path))

theorem Stage.Answers.operation (h : stage.Answers c d a) (hop : d.Operation d') :
    stage.Answers c d' a := by
  cases h with
  | refused e refusal => exact .refused e refusal
  | waiting path id job aim led =>
    obtain ⟨job', led', -⟩ := led.operation hop
    exact .waiting path id job' aim led'
  | served path id job result aim led ended =>
    obtain ⟨job', led', hlater⟩ := led.operation hop
    have hstage := hlater.stage (by rw [ended]; rfl)
    exact .served path id job' result aim led' (hstage.trans ended)

theorem answers_of_ended (aim : c.target a = .ok path) (led : c.IsLedTo d path id job)
    (hended : job.stage.inFlight = false) : Stage.Answers c d a (.served (d.outcome id)) := by
  obtain ⟨result, hs⟩ := Stage.exists_ended_of_inFlight hended
  rw [outcome_of_stage led.there hs, led.path_eq]
  exact .served path id job result aim led hs

theorem answers_join (aim : c.target a = .ok path) (led : c.IsLedTo d path id job) :
    (join d id).Answers c d a := by
  unfold join
  split
  · exact answers_of_ended aim led (inFlight_eq_false_of_hasEnded led.there ‹_›)
  · exact .waiting path id job aim led

/-- Someone who asked takes another step. -/
theorem Stage.Answers.step (h : caller.stage.Answers c d a) (hd : d.Balanced) :
    (caller.step d).1 = d ∧ (caller.step d).2.stage.Answers c d a := by
  unfold Caller.step
  generalize hs : caller.stage = stage at h
  cases h with
  | refused e refusal =>
    refine ⟨rfl, ?_⟩
    rw [hs]
    exact .refused e refusal
  | waiting path id job aim led =>
    refine ⟨rfl, ?_⟩
    simp only [wait]
    split
    · exact answers_of_ended aim led (hd.inFlight_eq_false_of_isSettled led.there ‹_›)
    · exact .waiting path id job aim led
  | served path id job result aim led ended =>
    refine ⟨rfl, ?_⟩
    rw [hs]
    exact .served path id job result aim led ended

end Caller

namespace Cache

variable {c d d' : Cache} {stores before : List (Address × String)} {caller : Caller}

/-- A caller stands to its store as it should. -/
def Attends (c d : Cache) (store : Address × String) (caller : Caller) : Prop :=
  caller.address = store.1 ∧ caller.content = store.2 ∧ caller.stage.Answers c d store.1

theorem Asked.step (h : c.Asked before d) (hc : c.Balanced) (quiet : c.Quiescent)
    (hasking : caller.stage = .asking) :
    c.Asked (before ++ [(caller.address, caller.content)]) (caller.step d).1 ∧
      (caller.step d).2.stage.Answers c (caller.step d).1 caller.address := by
  rw [Caller.step_of_target hasking, target_congr h.root]
  cases htarget : c.target caller.address with
  | error e => exact ⟨h.refuse htarget caller.content, .refused e htarget⟩
  | ok path =>
    obtain ⟨hasked, job, hled⟩ := h.seek hc quiet htarget caller.content
    exact ⟨hasked, Caller.answers_join htarget hled⟩

/-- Callers ask one after another. -/
theorem Asked.stepAll (h : c.Asked before d) (hc : c.Balanced) (quiet : c.Quiescent)
    (stores : List (Address × String)) :
    let asked := Caller.stepAll d (c.callers stores).callers
    c.Asked (before ++ stores) asked.1 ∧ List.Forall₂ (c.Attends asked.1) stores asked.2 := by
  induction stores generalizing before d with
  | nil => exact ⟨by simpa [callers, Caller.stepAll] using h, .nil⟩
  | cons store stores ih =>
    obtain ⟨a, content⟩ := store
    let caller : Caller := { address := a, content }
    obtain ⟨hasked, hanswers⟩ := h.step hc quiet (show caller.stage = .asking from rfl)
    obtain ⟨hrest, hattend⟩ := ih hasked
    rw [List.append_assoc] at hrest
    have hops := Caller.operations_stepAll (caller.step d).1 (c.callers stores).callers
    have hkept : (caller.step d).2.stage.Answers c
        (Caller.stepAll (caller.step d).1 (c.callers stores).callers).1 a := by
      generalize (Caller.stepAll (caller.step d).1 (c.callers stores).callers).1 = last at hops
      induction hops with
      | refl => exact hanswers
      | tail _ hop ih => exact ih.operation hop
    have hsame := caller.address_step d
    exact ⟨hrest, .cons ⟨hsame.1, hsame.2, hkept⟩ hattend⟩

/-! ## After all have asked -/

theorem orders_of_modify {id : Nat} {f : Job → Job} (jobs : d'.jobs = d.jobs.modify id f)
    (hpath : ∀ job, (f job).path = job.path) (hcontent : ∀ job, (f job).content = job.content) :
    d'.orders = d.orders := by
  rw [orders, orders, jobs]
  refine List.ext_getElem? fun other => ?_
  simp only [List.getElem?_map, List.getElem?_modify]
  split <;> simp [Function.comp_def, hpath, hcontent]

end Cache

/-- What goes with an item of the second list. -/
theorem exists_of_forall₂ {α β : Type} {R : α → β → Prop} {as : List α} {bs : List β} {i : Nat} {b : β}
    (h : List.Forall₂ R as bs) (hb : bs[i]? = some b) : ∃ a, as[i]? = some a ∧ R a b := by
  induction h generalizing i with
  | nil => cases hb
  | cons hhead _ ih =>
    cases i with
    | zero =>
      cases hb
      exact ⟨_, rfl, hhead⟩
    | succ i => exact ih hb

/-- When an item of a list takes another form, it still goes with the one beside it. -/
theorem forall₂_set {α β : Type} {R : α → β → Prop} {as : List α} {bs : List β} {i : Nat} {b b' : β}
    (h : List.Forall₂ R as bs) (hb : bs[i]? = some b) (hstep : ∀ a, R a b → R a b') :
    List.Forall₂ R as (bs.set i b') := by
  induction h generalizing i with
  | nil => exact .nil
  | cons hhead htail ih =>
    cases i with
    | zero =>
      cases hb
      exact .cons (hstep _ hhead) htail
    | succ i => exact .cons hhead (ih hb)

namespace Session

variable {c : Cache} {stores : List (Address × String)} {s t : Session}

/-- What holds of stores that were started together, from when all have asked: the new writes are the
first stores of each path that was not written, only these are tried, and every caller is attended to. -/
structure Shares (c : Cache) (stores : List (Address × String)) (s : Session) : Prop where
  deliveries : s.deliveries = []
  balanced : s.cache.Balanced
  old : ∀ (id : Nat) (job : Job), c.jobs[id]? = some job → s.cache.jobs[id]? = some job
  orders : ∃ news, s.cache.orders = c.orders ++ news ∧ c.Firsts stores news
  tries : ∃ made, s.cache.attempts = made ++ c.attempts ∧
    (∀ path ∈ made, ∃ id job, c.jobs.length ≤ id ∧ s.cache.jobs[id]? = some job ∧ job.path = path) ∧
    ∀ (id : Nat) (job : Job), c.jobs.length ≤ id → s.cache.jobs[id]? = some job →
      job.stage = .ready 0 ∨ job.path ∈ made
  attends : List.Forall₂ (c.Attends s.cache) stores s.callers

theorem shares_callAll (hc : c.Balanced) (quiet : c.Quiescent) (stores : List (Address × String)) :
    Shares c stores (c.callers stores).callAll := by
  obtain ⟨hasked, hattends⟩ := hc.asked.stepAll hc quiet stores
  rw [List.nil_append] at hasked
  rw [callAll_eq]
  exact ⟨rfl, hasked.balanced, hasked.old, hasked.orders, ⟨[], hasked.attempts, by simp,
    fun id job hge hj => Or.inl (hasked.fresh id job hge hj).1⟩, hattends⟩

/-- A new write changes, and the old ones stay as they are. -/
theorem Shares.modify (h : Shares c stores s) {d : Cache} {id : Nat} {job : Job} {f : Job → Job}
    (hop : s.cache.Operation d) (hj : s.cache.jobs[id]? = some job) (hnew : c.jobs.length ≤ id)
    (jobs : d.jobs = s.cache.jobs.modify id f) (hpath : ∀ job, (f job).path = job.path)
    (hcontent : ∀ job, (f job).content = job.content) (extra : List AbsolutePath)
    (attempts : d.attempts = extra ++ s.cache.attempts) (hextra : ∀ path ∈ extra, path = job.path)
    (hbegun : (f job).stage = job.stage ∨ (job.stage = .ready 0 → job.path ∈ extra)) :
    Shares c stores { s with cache := d } := by
  obtain ⟨news, horders, hfirsts⟩ := h.orders
  obtain ⟨made, hmade, htries, hready⟩ := h.tries
  have hchanged : d.jobs[id]? = some (f job) :=
    (getElem?_modify_jobs hj jobs).2 (Or.inr ⟨rfl, rfl⟩)
  refine ⟨h.deliveries, hop.books.balanced h.balanced, fun other job' hj' => ?_,
    ⟨news, (orders_of_modify jobs hpath hcontent).trans horders, hfirsts⟩,
    ⟨extra ++ made, by rw [attempts, hmade, List.append_assoc], fun path hmem => ?_,
      fun other job' hge hj' => ?_⟩,
    h.attends.imp fun store caller hattends =>
      ⟨hattends.1, hattends.2.1, hattends.2.2.operation hop⟩⟩
  · have hlt := (List.getElem?_eq_some_iff.1 hj').1
    exact (getElem?_modify_jobs hj jobs).2 (Or.inl ⟨by omega, h.old other job' hj'⟩)
  · rcases List.mem_append.1 hmem with hmem | hmem
    · exact ⟨id, f job, hnew, hchanged, (hpath job).trans (hextra path hmem).symm⟩
    · obtain ⟨other, job', hge, hj', hp⟩ := htries path hmem
      obtain ⟨later, hlater, hkept⟩ := hop.books.exists_later hj'
      exact ⟨other, later, hge, hlater, hkept.path.trans hp⟩
  · rcases (getElem?_modify_jobs hj jobs).1 hj' with ⟨-, hj'⟩ | ⟨rfl, rfl⟩
    · exact (hready other job' hge hj').imp_right (List.mem_append_right extra)
    · rw [hpath]
      -- The write that changes keeps its stage, or its try is noted when it leaves the first.
      rcases hbegun with hsame | hbegins
      · rw [hsame]
        exact (hready other job hge hj).imp_right (List.mem_append_right extra)
      · rcases hready other job hge hj with hstage | hmem
        · exact Or.inr (List.mem_append_left made (hbegins hstage))
        · exact Or.inr (List.mem_append_right extra hmem)

/-- The writes that were there before have ended, and their ends are noted. -/
theorem Shares.noted (h : Shares c stores s) (quiet : c.Quiescent) {id : Nat} {job : Job}
    (hj : s.cache.jobs[id]? = some job) (hlt : id < c.jobs.length) :
    job.stage.inFlight = false ∧ job.settled := by
  cases hj.symm.trans (h.old id _ (List.getElem?_eq_getElem hlt))
  have hmem := List.getElem_mem hlt
  exact ⟨inFlight_of_quiescent quiet _ hmem, (quiet _ hmem).2⟩

theorem Shares.serves (h : Shares c stores s) (quiet : c.Quiescent) (hst : s.Serves t) :
    Shares c stores t := by
  cases hst with
  | still => exact h
  | called i caller there =>
    obtain ⟨store, -, hattends⟩ := exists_of_forall₂ h.attends there
    obtain ⟨hcache, -⟩ := hattends.2.2.step h.balanced
    have hset : List.Forall₂ (c.Attends s.cache) stores
        (s.callers.set i (caller.step s.cache).2) := by
      refine forall₂_set h.attends there fun other hother => ?_
      have hsame := caller.address_step s.cache
      exact ⟨hsame.1.trans hother.1, hsame.2.trans hother.2.1, (hother.2.2.step h.balanced).2⟩
    rw [hcache]
    exact ⟨h.deliveries, h.balanced, h.old, h.orders, h.tries, hset⟩
  | advanced id =>
    cases hj : s.cache.jobs[id]? with
    | none => simpa only [advance, hj] using h
    | some job =>
      cases hf : job.stage.inFlight with
      | false => simpa only [advance_of_ended hj hf] using h
      | true =>
        have hnew : c.jobs.length ≤ id := by
          by_contra hlt
          rw [(h.noted quiet hj (Nat.lt_of_not_le hlt)).1] at hf
          cases hf
        have hattempts := attempts_advance hj
        refine h.modify (.advance id) hj hnew (turns_advance hj hf).jobs (fun _ => rfl)
          (fun _ => rfl) (if job.stage.isReady then [job.path] else []) ?_ ?_ ?_
        · rw [hattempts]
          split <;> rfl
        · intro path hmem
          split at hmem
          · exact List.mem_singleton.1 hmem
          · cases hmem
        · refine Or.inr fun hstage => ?_
          simp [hstage, Stage.isReady]
  | noted id =>
    cases hj : s.cache.jobs[id]? with
    | none => simpa only [Cache.settle, hj] using h
    | some job =>
      cases hf : job.stage.inFlight with
      | true => simpa only [settle_of_inFlight hj hf] using h
      | false =>
        cases hs : job.settled with
        | true => simpa only [settle_of_settled hj hs] using h
        | false =>
          have hnew : c.jobs.length ≤ id := by
            by_contra hlt
            rw [(h.noted quiet hj (Nat.lt_of_not_le hlt)).2] at hs
            cases hs
          exact h.modify (.settle id) hj hnew (jobs_settle hj hf hs) (fun _ => rfl) (fun _ => rfl)
            [] (kept_settle s.cache id).2 (by simp) (Or.inl rfl)

theorem Shares.playAll (h : Shares c stores s) (quiet : c.Quiescent) {moves : List Move}
    (hcalm : ∀ m ∈ moves, m.isCalm) : Shares c stores (s.playAll moves) := by
  induction moves generalizing s with
  | nil => exact h
  | cons m moves ih =>
    obtain ⟨hm, hrest⟩ := List.forall_mem_cons.1 hcalm
    exact ih (h.serves quiet (serves_play h.deliveries hm)) hrest

end Session
end SchemaArtifacts
