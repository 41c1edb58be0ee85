import SchemaArtifacts.Proofs.Session.Serving

/-!
# Refused stores are for themselves

Who is refused learns so at once, and neither begins a write nor joins one. So the same can happen
without those who are refused: whatever can come of stores that are started together, to the cache and to
those who are not refused, can come of them when the others are left out, and the other way round.

## Main definitions

* `Cache.accepts` — a store for an address is not refused
* `Session.Sans` — one session is the other without those who are refused
* `Cache.CanComeTo` — what can come of stores that are started together

## Main results

* `Session.Sans.play`, `Session.Sans.reflect` — each of two such sessions follows the other
* `Cache.canComeTo_filter` — refused stores change nothing for the others
-/

namespace SchemaArtifacts

open Cache

/-! ## Lists without some of their items -/

section Filter

variable {α : Type} {p : α → Bool} {as : List α} {i j : Nat} {a b : α}

theorem exists_getElem?_filter (h : as[i]? = some a) (ha : p a) :
    ∃ j, (as.filter p)[j]? = some a ∧ ∀ b, p b → (as.set i b).filter p = (as.filter p).set j b := by
  induction as generalizing i with
  | nil => cases h
  | cons first rest ih =>
    cases i with
    | zero =>
      cases h
      exact ⟨0, by simp [ha], fun b hb => by simp [ha, hb]⟩
    | succ i =>
      obtain ⟨j, hj, hset⟩ := ih h
      by_cases hfirst : p first
      · exact ⟨j + 1, by simpa [hfirst] using hj, fun b hb => by simp [hfirst, hset b hb]⟩
      · exact ⟨j, by simpa [hfirst] using hj, fun b hb => by simp [hfirst, hset b hb]⟩

theorem exists_getElem?_of_filter (h : (as.filter p)[j]? = some a) :
    ∃ i, as[i]? = some a ∧ ∀ b, p b → (as.set i b).filter p = (as.filter p).set j b := by
  induction as generalizing j with
  | nil => cases h
  | cons first rest ih =>
    by_cases hfirst : p first
    · rw [List.filter_cons_of_pos hfirst] at h
      cases j with
      | zero =>
        cases h
        exact ⟨0, rfl, fun b hb => by simp [hfirst, hb]⟩
      | succ j =>
        obtain ⟨i, hi, hset⟩ := ih h
        exact ⟨i + 1, hi, fun b hb => by simp [hfirst, hset b hb]⟩
    · rw [List.filter_cons_of_neg hfirst] at h
      obtain ⟨i, hi, hset⟩ := ih h
      exact ⟨i + 1, hi, fun b hb => by simp [hfirst, hset b hb]⟩

theorem filter_set_of_not (h : as[i]? = some a) (ha : p a = false) (hb : p b = false) :
    (as.set i b).filter p = as.filter p := by
  induction as generalizing i with
  | nil => cases h
  | cons first rest ih =>
    cases i with
    | zero =>
      cases h
      simp [ha, hb]
    | succ i => simp [List.filter_cons, ih h]

end Filter

/-! ## Those who are refused -/

/-- A store for an address is not refused. -/
def Cache.accepts (c : Cache) (a : Address) : Bool := (c.target a).isOk

/-- A caller will not be refused. -/
def Cache.admits (c : Cache) (caller : Caller) : Bool := c.accepts caller.address

namespace Caller

variable {c d : Cache} {caller : Caller}

theorem admits_step (c d : Cache) (caller : Caller) :
    c.admits (caller.step d).2 = c.admits caller := by
  rw [admits, (caller.address_step d).1, admits]

/-- Who is refused leaves the cache as it is. -/
theorem cache_step_of_refused (hroot : d.root = c.root) (h : c.admits caller = false) :
    (caller.step d).1 = d := by
  cases hs : caller.stage with
  | asking =>
    rw [step_of_target hs]
    have htarget : d.target caller.address = c.target caller.address := by
      simp only [target, locate, hroot]
    rw [htarget]
    cases haim : c.target caller.address with
    | error e => rfl
    | ok path => simp [admits, accepts, haim, Except.isOk, Except.toBool] at h
  | waiting id => exact cache_step_of_waiting hs
  | served result => rw [step_of_served hs]

theorem stepAll_filter (hroot : d.root = c.root) (callers : List Caller) :
    stepAll d (callers.filter c.admits) =
      ((stepAll d callers).1, (stepAll d callers).2.filter c.admits) := by
  induction callers generalizing d with
  | nil => rfl
  | cons caller rest ih =>
    cases h : c.admits caller with
    | true =>
      have hroot' := (operation_step caller d).sameWorld.root.trans hroot
      have h' : c.admits (caller.step d).2 = true := (admits_step c d caller).trans h
      rw [List.filter_cons_of_pos h, stepAll, ih hroot', stepAll, List.filter_cons_of_pos h']
    | false =>
      have h' : ¬ c.admits (caller.step d).2 = true := by
        rw [admits_step, h]
        exact Bool.false_ne_true
      have hsame := cache_step_of_refused hroot h
      rw [List.filter_cons_of_neg (by rw [h]; exact Bool.false_ne_true), ih hroot, stepAll,
        List.filter_cons_of_neg h', hsame]

end Caller

namespace Session

variable {c : Cache} {s t : Session} {m : Move} {moves : List Move}

/-- One session is the other without those who are refused. -/
structure Sans (c : Cache) (s t : Session) : Prop where
  cache : t.cache = s.cache
  callers : t.callers = s.callers.filter c.admits
  alone : s.deliveries = []
  alone' : t.deliveries = []
  root : s.cache.root = c.root

/-- A caller who is not refused takes a step in both sessions. -/
theorem Sans.called (h : Sans c s t) {i j : Nat} {caller : Caller}
    (hi : s.callers[i]? = some caller) (hj : t.callers[j]? = some caller)
    (hadmits : c.admits caller)
    (hset : ∀ other, c.admits other →
      (s.callers.set i other).filter c.admits = (s.callers.filter c.admits).set j other) :
    Sans c (s.play (.call i)) (t.play (.call j)) := by
  have hroot := (Caller.operation_step caller s.cache).sameWorld.root.trans h.root
  simp only [play, hi, hj, h.cache]
  refine ⟨rfl, ?_, h.alone, h.alone', hroot⟩
  rw [hset _ ((Caller.admits_step c s.cache caller).trans hadmits), h.callers]

/-- The session without those who are refused follows. -/
theorem Sans.play (h : Sans c s t) (hm : m.isCalm) :
    ∃ n : List Move, (∀ m ∈ n, m.isCalm) ∧ Sans c (s.play m) (t.playAll n) := by
  have hst := serves_play h.alone hm
  generalize hplayed : s.play m = played at hst
  cases hst with
  | still => exact ⟨[], by simp, h⟩
  | called i caller there =>
    cases hadmits : c.admits caller with
    | true =>
      obtain ⟨j, hj, hset⟩ := exists_getElem?_filter there hadmits
      rw [← h.callers] at hj
      have hcalled := h.called there hj hadmits hset
      simp only [Session.play, there] at hcalled
      exact ⟨[.call j], by simp [Move.isCalm], by simpa [Session.play] using hcalled⟩
    | false =>
      have hsame := Caller.cache_step_of_refused h.root hadmits
      have hrefused := (Caller.admits_step c s.cache caller).trans hadmits
      refine ⟨[], by simp, ?_, ?_, h.alone, h.alone', ?_⟩
      · rw [hsame]
        exact h.cache
      · exact h.callers.trans (filter_set_of_not there hadmits hrefused).symm
      · rw [hsame]
        exact h.root
  | advanced id =>
    refine ⟨[.write id], by simp [Move.isCalm], ?_, h.callers, h.alone, h.alone', ?_⟩
    · simp [Session.play, h.cache]
    · exact (sameWorld_advance s.cache id).root.trans h.root
  | noted id =>
    refine ⟨[.settle id], by simp [Move.isCalm], ?_, h.callers, h.alone, h.alone', ?_⟩
    · simp [Session.play, h.cache]
    · exact (sameWorld_settle s.cache id).root.trans h.root

/-- The session with those who are refused follows. -/
theorem Sans.reflect (h : Sans c s t) (hm : m.isCalm) :
    ∃ n : List Move, (∀ m ∈ n, m.isCalm) ∧ Sans c (s.playAll n) (t.play m) := by
  have hst := serves_play h.alone' hm
  generalize hplayed : t.play m = played at hst
  cases hst with
  | still => exact ⟨[], by simp, h⟩
  | called j caller there =>
    have there' := there
    rw [h.callers] at there'
    obtain ⟨i, hi, hset⟩ := exists_getElem?_of_filter there'
    have hadmits := (List.mem_filter.1 (List.mem_of_getElem? there')).2
    have hcalled := h.called hi there hadmits hset
    simp only [Session.play, there] at hcalled
    exact ⟨[.call i], by simp [Move.isCalm], by simpa [Session.play] using hcalled⟩
  | advanced id =>
    refine ⟨[.write id], by simp [Move.isCalm], ?_, h.callers, h.alone, h.alone', ?_⟩
    · simp [Session.play, h.cache]
    · exact (sameWorld_advance s.cache id).root.trans h.root
  | noted id =>
    refine ⟨[.settle id], by simp [Move.isCalm], ?_, h.callers, h.alone, h.alone', ?_⟩
    · simp [Session.play, h.cache]
    · exact (sameWorld_settle s.cache id).root.trans h.root

theorem Sans.playAll (h : Sans c s t) (hcalm : ∀ m ∈ moves, m.isCalm) :
    ∃ n : List Move, (∀ m ∈ n, m.isCalm) ∧ Sans c (s.playAll moves) (t.playAll n) := by
  induction moves generalizing s t with
  | nil => exact ⟨[], by simp, h⟩
  | cons m moves ih =>
    obtain ⟨hm, hrest⟩ := List.forall_mem_cons.1 hcalm
    obtain ⟨n, hn, h'⟩ := h.play hm
    obtain ⟨n', hn', h''⟩ := ih h' hrest
    exact ⟨n ++ n', List.forall_mem_append.2 ⟨hn, hn'⟩, by rwa [playAll_append]⟩

theorem Sans.reflectAll (h : Sans c s t) (hcalm : ∀ m ∈ moves, m.isCalm) :
    ∃ n : List Move, (∀ m ∈ n, m.isCalm) ∧ Sans c (s.playAll n) (t.playAll moves) := by
  induction moves generalizing s t with
  | nil => exact ⟨[], by simp, h⟩
  | cons m moves ih =>
    obtain ⟨hm, hrest⟩ := List.forall_mem_cons.1 hcalm
    obtain ⟨n, hn, h'⟩ := h.reflect hm
    obtain ⟨n', hn', h''⟩ := ih h' hrest
    exact ⟨n ++ n', List.forall_mem_append.2 ⟨hn, hn'⟩, by rwa [playAll_append]⟩

theorem sans_callAll (c : Cache) (stores : List (Address × String)) :
    Sans c (c.callers stores).callAll
      (c.callers (stores.filter fun store => c.accepts store.1)).callAll := by
  have hcallers : (c.callers (stores.filter fun store => c.accepts store.1)).callers =
      (c.callers stores).callers.filter c.admits := by
    simp only [Cache.callers, List.filter_map]
    rfl
  have hfilter := @Caller.stepAll_filter c c rfl (c.callers stores).callers
  rw [callAll_eq, callAll_eq, hcallers]
  refine ⟨?_, ?_, rfl, rfl, (Caller.sameWorld_stepAll c (c.callers stores).callers).root⟩
  · show (Caller.stepAll c _).1 = _
    rw [hfilter]
    rfl
  · show (Caller.stepAll c _).2 = _
    rw [hfilter]
    rfl

end Session

namespace Cache

variable {c d : Cache} {stores : List (Address × String)} {served : List Caller}

/-- Stores that are started together can come to a cache, and to callers who are not refused. -/
def CanComeTo (c : Cache) (stores : List (Address × String)) (d : Cache) (served : List Caller) :
    Prop :=
  ∃ moves : List Move, (∀ m ∈ moves, m.isCalm) ∧
    let t := (c.callers stores).callAll.playAll moves
    t.cache = d ∧ t.callers.filter c.admits = served

/-- What can come of stores to those that are not refused can come of these alone. -/
theorem canComeTo_filter : c.CanComeTo stores d served ↔
    c.CanComeTo (stores.filter fun store => c.accepts store.1) d served := by
  have hsans := Session.sans_callAll c stores
  constructor
  · rintro ⟨moves, hcalm, rfl, rfl⟩
    obtain ⟨n, hn, hsans'⟩ := hsans.playAll hcalm
    refine ⟨n, hn, hsans'.cache, ?_⟩
    rw [hsans'.callers, List.filter_filter]
    simp only [Bool.and_self]
  · rintro ⟨moves, hcalm, rfl, rfl⟩
    obtain ⟨n, hn, hsans'⟩ := hsans.reflectAll hcalm
    refine ⟨n, hn, hsans'.cache.symm, ?_⟩
    rw [hsans'.callers, List.filter_filter]
    simp only [Bool.and_self]

end Cache
end SchemaArtifacts
