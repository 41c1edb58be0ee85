import SchemaArtifacts.Proofs.Session.Turn

/-!
# Nothing ends as called off

A write ends as called off only if somebody calls it off. Deliveries do not, so none of them ends so
either, as long as no write that still stands was called off before.

## Main definitions

* `Stage.IsCalledOff`, `Delivery.Stage.IsCalledOff` — a write, and a delivery, has ended as called off
* `Cache.IsUncalled`, `Session.AreUncalled` — no write that still stands, or is waited for, was called
  off

## Main results

* `Job.not_isCalledOff_next` — no write calls itself off
* `Session.AreUncalled.turn` — what deliveries do calls nothing off
* `Session.not_ends_cancelled` — no delivery ends as called off
-/

namespace SchemaArtifacts

open Cache

namespace Except

variable {ε α β : Type} {e : ε}

/-- A sequence fails where one of its parts does. -/
theorem bind_eq_error {x : Except ε α} {f : α → Except ε β} (h : (x >>= f) = .error e) :
    x = .error e ∨ ∃ a, x = .ok a ∧ f a = .error e := by
  cases x with
  | error e' => exact Or.inl (by cases h; rfl)
  | ok a => exact Or.inr ⟨a, rfl, h⟩

theorem exists_of_mapM_eq_error {f : α → Except ε β} {as : List α} (h : as.mapM f = .error e) :
    ∃ a ∈ as, f a = .error e := by
  induction as with
  | nil => cases h
  | cons a as ih =>
    rw [List.mapM_cons] at h
    rcases bind_eq_error h with ha | ⟨b, -, h⟩
    · exact ⟨a, List.mem_cons_self, ha⟩
    · rcases bind_eq_error h with has | ⟨bs, -, h⟩
      · obtain ⟨a', hmem, ha'⟩ := ih has
        exact ⟨a', List.mem_cons_of_mem _ hmem, ha'⟩
      · cases h

end Except

/-- A write has ended because it was called off. -/
def Stage.IsCalledOff (stage : Stage) : Prop := stage = .ended (.error .cancelled)

theorem Stage.not_isCalledOff_of_inFlight {stage : Stage} (h : stage.inFlight) :
    ¬ stage.IsCalledOff := by
  rintro rfl
  cases h

/-- No write calls itself off. -/
theorem Job.not_isCalledOff_next {b : Backoff} {fault : Moment → Option Interruption} {draw : Number}
    {job : Job} (h : job.stage.inFlight) (d : Disk) : ¬ (job.next b fault draw d).1.IsCalledOff := by
  have hback : ∀ n e, e ≠ Failure.cancelled → ¬ (Stage.setBack b draw n e).IsCalledOff := by
    intro n e he
    unfold Stage.setBack Stage.IsCalledOff
    split
    · split <;> simp
    · simpa using he
  have hafter : ∀ (n : Nat) (next : Stage) (result : Except Failure Unit × Disk),
      result.1 ≠ .error .cancelled → ¬ next.IsCalledOff →
        ¬ (Stage.after b draw n next result).1.IsCalledOff := by
    rintro n next ⟨_ | _, d⟩ hresult hnext
    · exact hback n _ fun he => hresult (congrArg Except.error he)
    · exact hnext
  unfold next
  cases hs : job.stage with
  | ready n => exact hafter n _ _ (job.makeWay_ne_cancelled fault d) (by simp [Stage.IsCalledOff])
  | resting n => simp [Stage.IsCalledOff]
  | ended outcome =>
    rw [hs] at h
    cases h
  | _ => exact hafter _ _ _ (job.perform_ne_cancelled fault _ d) (by simp [Stage.IsCalledOff])

/-- No write that still stands was called off. -/
def Cache.IsUncalled (c : Cache) : Prop :=
  ∀ job ∈ c.jobs, job.settled = false → ¬ job.stage.IsCalledOff

namespace Document

variable {root : AbsolutePath} {format : Format} {doc : Document} {e : Failure}

theorem ne_cancelled_of_mapError {α : Type} {x : Except ShapeError α}
    (h : x.mapError Failure.shape = .error e) : e ≠ .cancelled := by
  cases x <;> cases h
  simp

theorem ne_cancelled_of_locateBelow {name : Json} (h : name.locateBelow root = .error e) :
    e ≠ .cancelled := by
  cases name with
  | string name =>
    rw [Json.locateBelow_string] at h
    cases hpath : Name.locate root name <;> rw [hpath] at h <;> cases h
    simp
  | _ =>
    cases h
    simp

theorem ne_cancelled_of_homeBelow (h : doc.homeBelow root = .error e) : e ≠ .cancelled := by
  unfold homeBelow at h
  cases hpath : doc.name.locateBelow root <;> rw [hpath] at h <;> cases h
  exact ne_cancelled_of_locateBelow hpath

theorem ne_cancelled_of_startBelow (h : doc.startBelow root format = .error e) :
    e ≠ .cancelled := by
  rcases Except.bind_eq_error h with hname | ⟨out, -, h⟩
  · exact ne_cancelled_of_mapError hname
  · rcases Except.bind_eq_error h with hhome | ⟨_, -, h⟩
    · exact ne_cancelled_of_homeBelow hhome
    · cases h

theorem ne_cancelled_of_specifierBelow {full : Json}
    (h : doc.specifierBelow root full = .error e) : e ≠ .cancelled := by
  rcases Except.bind_eq_error h with htarget | ⟨_, -, h⟩
  · exact ne_cancelled_of_locateBelow htarget
  · rcases Except.bind_eq_error h with hhome | ⟨_, -, h⟩
    · exact ne_cancelled_of_homeBelow hhome
    · cases h

theorem ne_cancelled_of_textBelow (h : doc.textBelow root format = .error e) : e ≠ .cancelled := by
  rcases Except.bind_eq_error h with hcompose | ⟨text, -, h⟩
  · exact ne_cancelled_of_mapError hcompose
  · rcases Except.bind_eq_error h with hheader | ⟨_, -, h⟩
    · obtain ⟨entry, -, hline⟩ := Except.exists_of_mapM_eq_error hheader
      rcases Except.bind_eq_error hline with hspecifier | ⟨_, -, hline⟩
      · exact ne_cancelled_of_specifierBelow hspecifier
      · cases hline
    · cases h

end Document

namespace Delivery

variable {c c' : Cache} {doc : Document} {format : Format} {stage stage' : Stage} {id : Nat}
  {job : Job}

/-- A delivery has ended because its write was called off. -/
def Stage.IsCalledOff (stage : Stage) : Prop := stage = .ended (.error .cancelled)

theorem Stage.not_isCalledOff_served (hj : c.jobs[id]? = some job)
    (hended : job.stage.inFlight = false) (hjob : ¬ job.stage.IsCalledOff) :
    ¬ (Stage.served c id).IsCalledOff := by
  unfold Stage.served Cache.outcome Stage.IsCalledOff
  rw [hj]
  dsimp only
  cases hs : job.stage with
  | ended outcome =>
    cases outcome with
    | ok _ => simp [Stage.outcome?, Except.map]
    | error e =>
      rw [hs] at hjob
      simpa [Stage.outcome?, Except.map, SchemaArtifacts.Stage.IsCalledOff] using hjob
  | _ =>
    rw [hs] at hended
    cases hended

/-- A delivery does not end as called off, unless a write that it comes to was. -/
theorem Stage.Turn.not_isCalledOff (h : Turn c doc format stage c' stage') (hb : c.Balanced)
    (hc : c.IsUncalled) (hstage : ¬ stage.IsCalledOff)
    (hawaited : ∀ out content id job, stage = .waiting out content id → c.jobs[id]? = some job →
      ¬ job.stage.IsCalledOff) : ¬ stage'.IsCalledOff := by
  cases h with
  | refused result other none always =>
    rintro hresult
    obtain rfl := Stage.ended.inj hresult
    have hready := congrArg Prod.snd (always c rfl)
    simp only [Stage.next] at hready
    cases hstart : doc.startBelow c.root format with
    | error e =>
      rw [hstart] at hready
      cases hready
      exact Document.ne_cancelled_of_startBelow hstart rfl
    | ok out =>
      rw [hstart] at hready
      simp only [look] at hready
      split at hready
      · split at hready <;> cases hready
      · split at hready <;> cases hready
  | textless out e text =>
    intro hresult
    cases hresult
    exact Document.ne_cancelled_of_textBelow text rfl
  | late out content id job artifact text pending there ended =>
    -- A write that was called off is found as pending only until its end is noted.
    refine not_isCalledOff_served there ended fun hoff => ?_
    obtain ⟨job', hj', -, hstands⟩ := hb.exists_of_pendingJob? pending
    cases there.symm.trans hj'
    refine hc job (List.mem_of_getElem? there) ?_ hoff
    rw [SchemaArtifacts.Stage.IsCalledOff] at hoff
    simpa [Job.stands, hoff, SchemaArtifacts.Stage.isDone] using hstands
  | served out content id job there settled ended =>
    exact not_isCalledOff_served there ended (hawaited out content id job rfl there)
  | rests result => exact hstage
  | _ => simp [Stage.IsCalledOff, Stage.waiting]

end Delivery

namespace Session

variable {s : Session} {orders : List (Document × Format)} {c' : Cache} {deliveries' : List Delivery}

/-- No write that stands or is waited for was called off, and no delivery has ended so. -/
structure AreUncalled (c : Cache) (deliveries : List Delivery) : Prop where
  standing : c.IsUncalled
  awaited : ∀ d ∈ deliveries, ∀ out content id job, d.stage = .waiting out content id →
    c.jobs[id]? = some job → ¬ job.stage.IsCalledOff
  ended : ∀ d ∈ deliveries, ¬ d.stage.IsCalledOff

/-- A step of a write or a note calls nothing off. -/
theorem AreUncalled.of_modify {c : Cache} {deliveries : List Delivery} (h : AreUncalled c deliveries)
    {id : Nat} {job : Job} {f : Job → Job} (hj : c.jobs[id]? = some job)
    (hjobs : c'.jobs = c.jobs.modify id f)
    (hkept : (f job).settled = false → ¬ (f job).stage.IsCalledOff)
    (hstage : ¬ job.stage.IsCalledOff → ¬ (f job).stage.IsCalledOff) :
    AreUncalled c' deliveries := by
  refine ⟨fun other hother hopen => ?_, fun d hd out content id' other hwaits hother => ?_, h.ended⟩
  · obtain ⟨id', hid'⟩ := List.getElem?_of_mem hother
    rcases (getElem?_modify_jobs hj hjobs).1 hid' with ⟨-, hid'⟩ | ⟨-, rfl⟩
    · exact h.standing other (List.mem_of_getElem? hid') hopen
    · exact hkept hopen
  · rcases (getElem?_modify_jobs hj hjobs).1 hother with ⟨-, hother⟩ | ⟨rfl, rfl⟩
    · exact h.awaited d hd out content id' other hwaits hother
    · exact hstage (h.awaited d hd out content id' job hwaits hj)

theorem AreUncalled.of_step {i : Nat} {d d' : Delivery} {order : Document × Format}
    (h : AreUncalled s.cache s.deliveries) (hb : s.cache.Balanced) (hd : s.deliveries[i]? = some d)
    (hturn : Delivery.Stage.Turn s.cache order.1 order.2 d.stage c' d'.stage) :
    AreUncalled c' (s.deliveries.set i d') := by
  have hmem := List.mem_of_getElem? hd
  have hended : ¬ d'.stage.IsCalledOff :=
    hturn.not_isCalledOff hb h.standing (h.ended d hmem) (h.awaited d hmem)
  have hnew : (∀ (id : Nat) (job : Job), c'.jobs[id]? = some job →
        s.cache.jobs[id]? = some job ∨ job.stage.inFlight) ∧
      ∀ (out content : String) (id : Nat) (job : Job), d'.stage = .waiting out content id →
        s.cache.jobs[id]? = some job → ¬ job.stage.IsCalledOff := by
    generalize hfirst : d.stage = first at hturn
    generalize d'.stage = last at hturn
    cases hturn with
    | begins out content path artifact text free =>
      refine ⟨fun id job hj => ?_, fun out' content' id job hwaits hj => ?_⟩
      · rcases getElem?_jobs_open_.1 hj with hj | ⟨-, rfl⟩
        · exact Or.inl hj
        · exact Or.inr rfl
      · obtain ⟨-, rfl⟩ := Delivery.Stage.waiting_inj hwaits
        have hlt := (List.getElem?_eq_some_iff.1 hj).1
        exact absurd hlt (Nat.lt_irrefl _)
    | joins out content id job artifact text pending there inFlight =>
      refine ⟨fun _ _ => Or.inl, fun out' content' id' job' hwaits hj => ?_⟩
      obtain ⟨-, rfl⟩ := Delivery.Stage.waiting_inj hwaits
      cases there.symm.trans hj
      exact Stage.not_isCalledOff_of_inFlight inFlight
    | waits out content id unsettled =>
      exact ⟨fun _ _ => Or.inl, fun out' content' id' job' hwaits hj =>
        h.awaited d hmem out' content' id' job' (hfirst.trans hwaits) hj⟩
    | _ => exact ⟨fun _ _ => Or.inl, fun out content id job hwaits => by cases hwaits⟩
  obtain ⟨hjobs, hown⟩ := hnew
  refine ⟨fun job hjob hopen => ?_, fun e he out content id job hwaits hj => ?_, fun e he => ?_⟩
  · obtain ⟨id, hid⟩ := List.getElem?_of_mem hjob
    rcases hjobs id job hid with hj | hf
    · exact h.standing job (List.mem_of_getElem? hj) hopen
    · exact Stage.not_isCalledOff_of_inFlight hf
  · rcases hjobs id job hj with hj | hf
    · rcases List.mem_or_eq_of_mem_set he with he | rfl
      · exact h.awaited e he out content id job hwaits hj
      · exact hown out content id job hwaits hj
    · exact Stage.not_isCalledOff_of_inFlight hf
  · rcases List.mem_or_eq_of_mem_set he with he | rfl
    · exact h.ended e he
    · exact hended

/-- What deliveries do calls nothing off. -/
theorem AreUncalled.turn (h : AreUncalled s.cache s.deliveries) (hb : s.cache.Balanced)
    (hturn : s.Turn orders c' deliveries') : AreUncalled c' deliveries' := by
  cases hturn with
  | still => exact h
  | step i d d' order c' there ordered turn => exact h.of_step hb there turn
  | write id job there inFlight =>
    have hnext : ¬ (s.cache.nextOf job).1.IsCalledOff := Job.not_isCalledOff_next inFlight _
    exact h.of_modify there (turns_advance there inFlight).jobs (fun _ => hnext) fun _ => hnext
  | settle id job there ended fresh =>
    exact h.of_modify there (jobs_settle there ended fresh) (fun hopen => by cases hopen) fun hoff => hoff

theorem AreUncalled.playAll (h : AreUncalled s.cache s.deliveries) (hruns : s.Runs orders)
    {moves : List Move} (hmoves : ∀ m ∈ moves, m.isOrderly) :
    AreUncalled (s.playAll moves).cache (s.playAll moves).deliveries := by
  induction moves generalizing s with
  | nil => exact h
  | cons m moves ih =>
    obtain ⟨hm, hrest⟩ := List.forall_mem_cons.1 hmoves
    exact ih (h.turn hruns.balanced (turn_play hruns hm)) (hruns.play m) hrest

/-- No delivery ends as called off. -/
theorem not_ends_cancelled {c : Cache} (hb : c.Balanced) (hc : c.IsUncalled) {format : Format}
    {limit : Nat} {docs : List Document} {moves : List Move} (hmoves : ∀ m ∈ moves, m.isOrderly) :
    ∀ d ∈ ((ofDocuments c format limit docs).playAll moves).deliveries,
      d.result? ≠ some (.error .cancelled) := by
  have hstart : AreUncalled c (ofDocuments c format limit docs).deliveries := by
    refine ⟨hc, fun d hd out content id job hwaits => ?_, fun d hd hoff => ?_⟩
    · obtain ⟨doc, -, rfl⟩ := List.mem_map.1 hd
      cases hwaits
    · obtain ⟨doc, -, rfl⟩ := List.mem_map.1 hd
      cases hoff
  have hall := AreUncalled.playAll (s := ofDocuments c format limit docs) hstart
    (runs_ofDocuments hb format limit docs) hmoves
  exact fun d hd hresult => hall.ended d hd (Delivery.stage_of_result? hresult)

end Session
end SchemaArtifacts
