import SchemaArtifacts.Proofs.Cache.Aftermath
import SchemaArtifacts.Proofs.Session.Refused
import SchemaArtifacts.Proofs.Session.Shared

/-!
# Stores that are started together

Texts are stored together on a cache on which nothing is on its way. However their writes take their
steps, each path that was not written is written once, with the first text for it, and all who asked for
it get the same. Who asked for a path that was written gets it, and it is not written again. Who is
refused gets that, and is as good as not there for the others.

## Main definitions

* `Cache.StoresTogether` — what stores that are started together lead to

## Main results

* `Session.Shares.storesTogether` — what is written, and what everybody gets
* `Cache.stores_together` — however writes take their steps, and whoever is refused
-/

namespace SchemaArtifacts

open Cache

/-- A list has at most one item of a kind. -/
theorem eq_of_length_filter_le_one {α : Type} {p : α → Bool} {as : List α} {i j : Nat} {a b : α}
    (h : (as.filter p).length ≤ 1) (hi : as[i]? = some a) (ha : p a) (hj : as[j]? = some b)
    (hb : p b) : i = j := by
  induction as generalizing i j with
  | nil => cases hi
  | cons first rest ih =>
    have hrest : p first → ∀ (k : Nat) (d : α), rest[k]? = some d → p d → False := by
      intro hfirst k d hk hd
      rw [List.filter_cons_of_pos hfirst, List.length_cons] at h
      have hmem : d ∈ rest.filter p := List.mem_filter.2 ⟨List.mem_of_getElem? hk, hd⟩
      have hpos := List.length_pos_of_mem hmem
      omega
    cases i with
    | zero =>
      cases hi
      cases j with
      | zero => rfl
      | succ j => exact (hrest ha j b hj hb).elim
    | succ i =>
      cases j with
      | zero =>
        cases hj
        exact (hrest hb i a hi ha).elim
      | succ j =>
        have hle : (rest.filter p).length ≤ 1 :=
          Nat.le_trans ((List.sublist_cons_self first rest).filter p).length_le h
        rw [ih hle hi hj]

namespace Cache

/-- What stores that are started together lead to, at any time. -/
structure StoresTogether (c : Cache) (stores : List (Address × String)) (s : Session) : Prop where
  /-- Each path that was not written gets one write, with the first text for it. -/
  writes : ∃ news, s.cache.orders = c.orders ++ news ∧ c.Firsts stores news
  /-- Only these writes are tried; and each is, unless it is yet to begin. -/
  tries : ∃ made, s.cache.attempts = made ++ c.attempts ∧
    (∀ path ∈ made, ∃ id job, c.jobs.length ≤ id ∧ s.cache.jobs[id]? = some job ∧ job.path = path) ∧
    ∀ (id : Nat) (job : Job), c.jobs.length ≤ id → s.cache.jobs[id]? = some job →
      job.stage = .ready 0 ∨ job.path ∈ made
  callers : s.callers.length = stores.length
  /-- Who is refused gets that. -/
  refused : ∀ (i : Nat) (a : Address) (content : String) (e : Failure),
    stores[i]? = some (a, content) → c.target a = .error e → s.answer? i = some (.error e)
  /-- A path that was written is all that anyone gets who asked for it. -/
  known : ∀ (i : Nat) (a : Address) (content : String) (path : AbsolutePath),
    stores[i]? = some (a, content) → c.target a = .ok path → path ∈ c.written →
    ∀ result, s.answer? i = some result → result = .ok path
  /-- Who asked for another path gets what its write has ended in. -/
  shared : ∀ (id : Nat) (job : Job), c.jobs.length ≤ id → s.cache.jobs[id]? = some job →
    ∀ (i : Nat) (a : Address) (content : String), stores[i]? = some (a, content) →
      c.target a = .ok job.path → ∀ result, s.answer? i = some result →
        ∃ outcome, job.stage = .ended outcome ∧ result = outcome.map fun _ => job.path

variable {c d : Cache} {stores : List (Address × String)} {news : List (AbsolutePath × String)}

/-- A path has at most one new write, and none if it was written. -/
theorem Firsts.length_le_one (h : c.Firsts stores news) (path : AbsolutePath) :
    (news.filter (·.1 = path)).length ≤ 1 := by
  rw [h path]
  split
  · exact Nat.zero_le 1
  · exact List.length_take_le 1 _

/-- Two new writes for one path are one. -/
theorem Firsts.eq_of_path (h : c.Firsts stores news) (horders : d.orders = c.orders ++ news)
    {id id' : Nat} {job job' : Job} (hge : c.jobs.length ≤ id) (hj : d.jobs[id]? = some job)
    (hge' : c.jobs.length ≤ id') (hj' : d.jobs[id']? = some job') (hpath : job'.path = job.path) :
    id' = id := by
  have heq := eq_of_length_filter_le_one (h.length_le_one job.path)
    (getElem?_news_of_orders horders hge' hj') (by simpa using hpath)
    (getElem?_news_of_orders horders hge hj) (by simp)
  omega

/-- A path that was written has no new write. -/
theorem Firsts.not_mem_written (h : c.Firsts stores news) (horders : d.orders = c.orders ++ news)
    {id : Nat} {job : Job} (hge : c.jobs.length ≤ id) (hj : d.jobs[id]? = some job) :
    job.path ∉ c.written := by
  intro hw
  have hnone := h job.path
  rw [if_pos hw, List.filter_eq_nil_iff] at hnone
  exact hnone _ (List.mem_of_getElem? (getElem?_news_of_orders horders hge hj)) (by simp)

end Cache

namespace Session

variable {c : Cache} {stores : List (Address × String)} {s : Session} {i : Nat} {a : Address}
  {content : String} {result : Except Failure AbsolutePath}

theorem Shares.answers (h : Shares c stores s) (hi : stores[i]? = some (a, content)) :
    ∃ caller, s.callers[i]? = some caller ∧ caller.stage.Answers c s.cache a := by
  obtain ⟨caller, hcaller, hattends⟩ := exists_of_forall₂ h.attends.flip hi
  exact ⟨caller, hcaller, hattends.2.2⟩

theorem Shares.storesTogether (h : Shares c stores s) : c.StoresTogether stores s where
  writes := h.orders
  tries := h.tries
  callers := h.attends.length_eq.symm
  refused i a content e hi refusal := by
    obtain ⟨caller, hcaller, hanswers⟩ := h.answers hi
    rw [answer?, hcaller, Option.bind_some, Caller.result?]
    generalize caller.stage = stage at hanswers
    cases hanswers with
    | refused e' refusal' =>
      cases refusal.symm.trans refusal'
      rfl
    | waiting path id job aim => cases refusal.symm.trans aim
    | served path id job result aim => cases refusal.symm.trans aim
  known i a content path hi aim hw result hresult := by
    obtain ⟨caller, hcaller, hanswers⟩ := h.answers hi
    rw [answer?, hcaller, Option.bind_some, Caller.result?] at hresult
    generalize caller.stage = stage at hanswers hresult
    cases hanswers with
    | refused e refusal => cases refusal.symm.trans aim
    | waiting => cases hresult
    | served path' id job outcome aim' led ended =>
      cases aim.symm.trans aim'
      have hdone := led.known hw
      rw [ended] at hdone
      cases outcome with
      | ok => exact (Option.some.inj hresult).symm
      | error e => cases hdone
  shared id job hge hj i a content hi aim result hresult := by
    obtain ⟨caller, hcaller, hanswers⟩ := h.answers hi
    obtain ⟨news, horders, hfirsts⟩ := h.orders
    rw [answer?, hcaller, Option.bind_some, Caller.result?] at hresult
    generalize caller.stage = stage at hanswers hresult
    cases hanswers with
    | refused e refusal => cases refusal.symm.trans aim
    | waiting => cases hresult
    | served path id' job' outcome aim' led ended =>
      cases aim.symm.trans aim'
      have hnew := hfirsts.not_mem_written horders hge hj
      obtain rfl := hfirsts.eq_of_path horders hge hj (led.fresh hnew) led.there led.path_eq
      cases hj.symm.trans led.there
      exact ⟨outcome, ended, (Option.some.inj hresult).symm⟩

end Session

namespace Cache

variable {c : Cache}

/-- Stores are started together on a cache on which nothing is on its way. However the writes take their
steps, each path gets one write with the first text for it, or none if it was written, and everybody who
asked for it gets the same; and everybody is served if the steps go on, unless tries are made without end.
Those who are refused get that, and what can come of the others is what can come of them alone. When all
are waited for, they are served in one of these ways. -/
theorem stores_together (reached : c.IsReached) (quiet : c.Quiescent)
    (stores : List (Address × String)) :
    (∀ moves : List Move, (∀ m ∈ moves, m.isCalm) →
      let s := (c.callers stores).callAll.playAll moves
      c.StoresTogether stores s ∧ (¬ c.backoff.IsPatient →
        ∃ more : List Move, (∀ m ∈ more, m.isCalm) ∧ (s.playAll more).Quiescent)) ∧
    (∀ d served, c.CanComeTo stores d served ↔
      c.CanComeTo (stores.filter fun store => c.accepts store.1) d served) ∧
    ∃ moves : List Move, (∀ m ∈ moves, m.isCalm) ∧
      let done := (c.callers stores).callAll.playAll moves
      c.storeAll stores = (done.cache, done.results) ∧
        (¬ c.backoff.IsPatient → done.Quiescent) := by
  have hshares := Session.shares_callAll reached.balanced quiet stores
  have hserving := fun hlimited : ¬ c.backoff.IsPatient =>
    Session.isServing_callers reached.balanced hlimited stores
  refine ⟨fun moves hcalm => ⟨(hshares.playAll quiet hcalm).storesTogether, fun hlimited => ?_⟩,
    fun d served => canComeTo_filter, ?_⟩
  · exact (hserving hlimited).callAll.exists_quiescent hcalm
  · obtain ⟨moves, hcalm, hfinish⟩ := Session.leadsCalmly_callAll quiet stores
    refine ⟨moves, hcalm, ?_⟩
    rw [hfinish]
    exact ⟨rfl, fun hlimited => (hserving hlimited).quiescent_finish⟩

/-- Five stores: one for a path that was written, one for a new path, one for a local file, another for
the new path under another spelling, and one for a name without a path. -/
theorem stores_together_five : ∃ (c : Cache) (stores : List (Address × String)) (done : Session),
    stores.map (fun store => (store.1.url, store.2)) =
        [("/w", "new"), ("/a", "x"), ("/b", "l"), ("a", "y"), ("ftp://e/a", "z")] ∧
      c.StoresTogether stores done ∧ done.Quiescent ∧
      (c.storeAll stores).2.map Except.toOption = [some { parts := ["c", "w"] },
        some { parts := ["c", "a"] }, none, some { parts := ["c", "a"] }, none] ∧
      done.cache.disk.content? { parts := ["c", "w"] } = some "old" ∧
      done.cache.disk.content? { parts := ["c", "a"] } = some "x" := by
  let first : Cache := { root := { parts := ["c"] } }
  let known : Address := { url := "/w", isLocal := false }
  let stores : List (Address × String) :=
    [(known, "new"), ({ url := "/a", isLocal := false }, "x"),
      ({ url := "/b", isLocal := true }, "l"), ({ url := "a", isLocal := false }, "y"),
      ({ url := "ftp://e/a", isLocal := false }, "z")]
  have hfirst : first.IsReached := ⟨first, ⟨rfl, rfl, rfl, rfl⟩, .refl⟩
  have hreached := hfirst.store known "old"
  have hquiet : ∀ job ∈ ((store known "old").run first).2.jobs,
      job.stage.outcome?.isSome ∧ job.settled := by decide +kernel
  have hmax : ((store known "old").run first).2.backoff.maxRetries = .int 3 := by decide +kernel
  have hresults : (((store known "old").run first).2.storeAll stores).2.map Except.toOption =
      [some { parts := ["c", "w"] }, some { parts := ["c", "a"] }, none,
        some { parts := ["c", "a"] }, none] := by decide +kernel
  have hknown : (((store known "old").run first).2.storeAll stores).1.disk.content?
      { parts := ["c", "w"] } = some "old" := by decide +kernel
  have hnew : (((store known "old").run first).2.storeAll stores).1.disk.content?
      { parts := ["c", "a"] } = some "x" := by decide +kernel
  generalize ((store known "old").run first).2 = c at hreached hquiet hmax hresults hknown hnew
  obtain ⟨hmoves, -, moves, hcalm, hdone, hquiescent⟩ := stores_together hreached hquiet stores
  rw [hdone] at hknown hnew
  have hlimited : ¬ c.backoff.IsPatient := by simp [Backoff.IsPatient, hmax]
  exact ⟨c, stores, _, rfl, (hmoves moves hcalm).1, hquiescent hlimited, hresults, hknown, hnew⟩

end Cache
end SchemaArtifacts
