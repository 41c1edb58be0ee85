import SchemaArtifacts.Proofs.Session.Course

/-!
# The turns of a session

When nobody gives up and nothing is called off, a session goes on by the steps of its deliveries, by
those of its writes, and by the cache taking note. A delivery has few kinds of steps, and only one
of them begins a write, which the delivery then waits for. So every write in flight is waited for,
and once all deliveries have ended no write is on its way.

## Main definitions

* `Delivery.Stage.Turn` — the steps of a delivery
* `Move.isOrderly` — nobody gives up and nothing is called off
* `Session.Turn` — what an orderly move can do
* `Session.IsHeld` — every write in flight is waited for
* `Session.IsIdle` — all deliveries have ended

## Main results

* `Delivery.Stage.turn_next` — a delivery takes one of these steps
* `Session.turn_play` — an orderly move does one of these things
* `Session.IsHeld.turn` — writes in flight stay waited for
* `Session.IsHeld.inFlight_eq_false` — when all deliveries have ended, so have the writes
-/

namespace SchemaArtifacts

open Cache

namespace Delivery

/-- The steps of a delivery of a document in a format: from a stage, to a cache and a stage. -/
inductive Stage.Turn (c : Cache) (doc : Document) (format : Format) :
    Stage → Cache → Stage → Prop where
  /-- The document has no artifact, whatever the cache holds. -/
  | refused (result : Except Failure ExportStatus) (other : result ≠ .ok .written)
      (none : ∀ out path, ¬ doc.HasArtifact c.root format out path)
      (always : ∀ c' : Cache, c'.root = c.root →
        Stage.next doc format c' .ready = (c', .ended result)) :
      Turn c doc format .ready c (.ended result)
  | known (out : String) (path : AbsolutePath) (artifact : doc.HasArtifact c.root format out path)
      (written : c.isWritten path) : Turn c doc format .ready c (.ended (.ok .cached))
  | looks (out : String) (path : AbsolutePath) (artifact : doc.HasArtifact c.root format out path)
      (unknown : c.isWritten path = false) : Turn c doc format .ready c (.looking out path)
  | answers (out : String) (path : AbsolutePath)
      (artifact : doc.HasArtifact c.root format out path) :
      Turn c doc format (.looking out path) c (.answered out (c.disk.exists_ path))
  | present (out : String) : Turn c doc format (.answered out true) c (.ended (.ok .cached))
  | textless (out : String) (e : Failure) (text : doc.textBelow c.root format = .error e) :
      Turn c doc format (.answered out false) c (.ended (.error e))
  /-- A write begins, and the delivery waits for it. -/
  | begins (out content : String) (path : AbsolutePath)
      (artifact : doc.HasArtifact c.root format out path)
      (text : doc.textBelow c.root format = .ok content) (free : c.pendingJob? path = none) :
      Turn c doc format (.answered out false) (c.open_ path content)
        (.waiting out content c.jobs.length)
  /-- The write that stands for the path is waited for. -/
  | joins (out content : String) (id : Nat) (job : Job)
      (artifact : doc.HasArtifact c.root format out job.path)
      (text : doc.textBelow c.root format = .ok content)
      (pending : c.pendingJob? job.path = some id) (there : c.jobs[id]? = some job)
      (inFlight : job.stage.inFlight) :
      Turn c doc format (.answered out false) c (.waiting out content id)
  /-- The write that stands for the path has ended. -/
  | late (out content : String) (id : Nat) (job : Job)
      (artifact : doc.HasArtifact c.root format out job.path)
      (text : doc.textBelow c.root format = .ok content)
      (pending : c.pendingJob? job.path = some id) (there : c.jobs[id]? = some job)
      (ended : job.stage.inFlight = false) :
      Turn c doc format (.answered out false) c (.served c id)
  | waits (out content : String) (id : Nat) (unsettled : c.isSettled id = false) :
      Turn c doc format (.waiting out content id) c (.waiting out content id)
  | served (out content : String) (id : Nat) (job : Job) (there : c.jobs[id]? = some job)
      (settled : c.isSettled id) (ended : job.stage.inFlight = false) :
      Turn c doc format (.waiting out content id) c (.served c id)
  | rests (result : Except Failure ExportStatus) :
      Turn c doc format (.ended result) c (.ended result)

variable {c : Cache} {doc : Document} {format : Format} {stage : Stage}

/-- A delivery that begins is refused, or knows its artifact, or looks for it. -/
theorem Stage.turn_ready (c : Cache) (doc : Document) (format : Format) :
    Turn c doc format .ready c (Stage.next doc format c .ready).2 := by
  cases hstart : doc.startBelow c.root format with
  | error e =>
    have halways : ∀ c' : Cache, c'.root = c.root →
        Stage.next doc format c' .ready = (c', .ended (.error e)) := by
      intro c' hroot
      simp only [Stage.next, hroot, hstart]
    rw [halways c rfl]
    refine .refused _ (by simp) (fun out path h => ?_) halways
    cases hstart.symm.trans h.start
  | ok out =>
    cases hpath : Name.locate c.root out with
    | error e =>
      have halways : ∀ c' : Cache, c'.root = c.root → Stage.next doc format c' .ready =
          (c', .ended (if e.isUnsupported then .ok .skipped else .error (.name e))) := by
        intro c' hroot
        simp only [Stage.next, hroot, hstart, look, Cache.locate, hpath]
      rw [halways c rfl]
      refine .refused _ (by split <;> simp) (fun out' path h => ?_) halways
      cases hstart.symm.trans h.start
      cases hpath.symm.trans h.path
    | ok path =>
      have hnext : (Stage.next doc format c .ready).2 =
          if c.isWritten path then .ended (.ok .cached) else .looking out path := by
        simp only [Stage.next, hstart, look, Cache.locate, hpath]
      rw [hnext]
      cases hknown : c.isWritten path with
      | true => exact .known out path ⟨hstart, hpath⟩ hknown
      | false => exact .looks out path ⟨hstart, hpath⟩ hknown

theorem hasEnded_iff {id : Nat} {job : Job} (hj : c.jobs[id]? = some job) :
    c.hasEnded id = !job.stage.inFlight := by
  unfold hasEnded
  rw [hj]
  cases h : job.stage.outcome? <;> simp [Stage.inFlight, h]

/-- A delivery whose text is to be stored begins a write, or comes to the one that stands. -/
theorem Stage.turn_answered (hb : c.Balanced) {out : String} {path : AbsolutePath}
    (hartifact : doc.HasArtifact c.root format out path) :
    Turn c doc format (.answered out false) (Stage.next doc format c (.answered out false)).1
      (Stage.next doc format c (.answered out false)).2 := by
  cases htext : doc.textBelow c.root format with
  | error e =>
    simp only [Stage.next, htext]
    exact .textless out e htext
  | ok content =>
    rw [next_answered hartifact.path htext]
    cases hp : c.pendingJob? path with
    | none =>
      have hseek : c.seek path content = (c.open_ path content, c.jobs.length) := by
        simp only [seek, hp]
      have hj : (c.open_ path content).jobs[c.jobs.length]? = some { path, content } :=
        getElem?_jobs_open_.2 (Or.inr ⟨rfl, rfl⟩)
      rw [hseek, hasEnded_iff hj]
      exact .begins out content path hartifact htext hp
    | some id =>
      have hseek : c.seek path content = (c, id) := by simp only [seek, hp]
      -- A write stands for the path, and it may have ended before anybody waits for it.
      obtain ⟨job, hj, rfl⟩ := hb.exists_seek path content
      rw [hseek] at hj ⊢
      dsimp only at hj ⊢
      rw [hasEnded_iff hj]
      cases hf : job.stage.inFlight with
      | true => exact .joins out content id job hartifact htext hp hj hf
      | false => exact .late out content id job hartifact htext hp hj hf

/-- A delivery that has settled right takes one of the steps. -/
theorem Stage.turn_next (hb : c.Balanced) (h : stage.IsSound c doc format) :
    Turn c doc format stage (Stage.next doc format c stage).1
      (Stage.next doc format c stage).2 := by
  cases h with
  | ready => exact turn_ready c doc format
  | looking out path artifact => exact .answers out path artifact
  | answered out present path artifact =>
    cases present with
    | true => exact .present out
    | false => exact turn_answered hb artifact
  | waiting out content id job artifact text there =>
    rw [next_waiting]
    cases hs : c.isSettled id with
    | false => exact .waits out content id hs
    | true => exact .served out content id job there hs (hb.inFlight_eq_false_of_isSettled there hs)
  | written => exact .rests _
  | ended result other => exact .rests result

/-- The stage of a delivery that waits tells the text and the write. -/
theorem Stage.waiting_inj {out out' content content' : String} {id id' : Nat}
    (h : Stage.waiting out content id = .waiting out' content' id') :
    content = content' ∧ id = id' := by
  have hcaller := Stage.storing.inj h
  have hstage := congrArg Caller.stage hcaller
  exact ⟨congrArg Caller.content hcaller, Caller.Stage.waiting.inj hstage⟩

/-- A delivery that waits has settled on a write of its artifact. -/
theorem Stage.IsSound.of_waiting {out content : String} {id : Nat} (h : stage.IsSound c doc format)
    (hstage : stage = .waiting out content id) :
    ∃ out' job, c.jobs[id]? = some job ∧ doc.HasArtifact c.root format out' job.path := by
  cases h with
  | waiting out' content' id' job artifact text there =>
    obtain ⟨-, rfl⟩ := waiting_inj hstage
    exact ⟨out', job, there, artifact⟩
  | _ => cases hstage

/-- A delivery that waits goes on to wait, or is served. -/
theorem Stage.Turn.of_waiting {out content : String} {id : Nat} {c' : Cache} {stage' : Stage}
    (h : Turn c doc format stage c' stage') (hwaits : stage = .waiting out content id) :
    c' = c ∧ (stage' = .waiting out content id ∧ c.isSettled id = false ∨
      ∃ job, c.jobs[id]? = some job ∧ c.isSettled id ∧ job.stage.inFlight = false ∧
        stage' = .served c id) := by
  cases h with
  | waits out' content' id' unsettled =>
    obtain ⟨-, rfl⟩ := waiting_inj hwaits
    exact ⟨rfl, Or.inl ⟨hwaits, unsettled⟩⟩
  | served out' content' id' job there settled ended =>
    obtain ⟨-, rfl⟩ := waiting_inj hwaits
    exact ⟨rfl, Or.inr ⟨job, there, settled, ended, rfl⟩⟩
  | _ => cases hwaits

end Delivery

/-- Whoever waits for a write goes on to wait for it when a delivery takes a step, or it is the one that
takes the step, and is served. -/
theorem Delivery.Stage.Turn.exists_waiting {deliveries : List Delivery} {i j id : Nat}
    {d d' e : Delivery} {doc : Document} {format : Format} {c c' : Cache} {out content : String}
    (h : Turn c doc format d.stage c' d'.stage) (hd : deliveries[i]? = some d)
    (he : deliveries[j]? = some e) (hwaits : e.stage = .waiting out content id) :
    (∃ e', (deliveries.set i d')[j]? = some e' ∧ e'.stage = .waiting out content id) ∨
      i = j ∧ d.stage = .waiting out content id ∧ d'.stage = .served c id ∧
        ∃ job, c.jobs[id]? = some job ∧ c.isSettled id ∧ job.stage.inFlight = false := by
  obtain ⟨e', he', ⟨rfl, rfl⟩ | ⟨-, rfl⟩⟩ := exists_getElem?_set he i d'
  · cases hd.symm.trans he
    rcases (h.of_waiting hwaits).2 with ⟨hlast, -⟩ | ⟨job, there, settled, ended, hlast⟩
    · exact .inl ⟨_, he', hlast⟩
    · exact .inr ⟨rfl, hwaits, hlast, job, there, settled, ended⟩
  · exact .inl ⟨_, he', hwaits⟩

/-- Nobody calls, nobody gives up, and nothing is called off. -/
def Move.isOrderly : Move → Bool
  | .start | .proceed _ | .write _ | .settle _ => true
  | .call _ | .giveUp _ | .abandon _ | .callOff _ => false

namespace Session

/-- What an orderly move can do to the cache and the deliveries of a session. -/
inductive Turn (s : Session) (orders : List (Document × Format)) : Cache → List Delivery → Prop where
  | still : Turn s orders s.cache s.deliveries
  | step (i : Nat) (d d' : Delivery) (order : Document × Format) (c' : Cache)
      (there : s.deliveries[i]? = some d) (ordered : orders[i]? = some order)
      (turn : Delivery.Stage.Turn s.cache order.1 order.2 d.stage c' d'.stage) :
      Turn s orders c' (s.deliveries.set i d')
  | write (id : Nat) (job : Job) (there : s.cache.jobs[id]? = some job)
      (inFlight : job.stage.inFlight) : Turn s orders (s.cache.advance id) s.deliveries
  | settle (id : Nat) (job : Job) (there : s.cache.jobs[id]? = some job)
      (ended : job.stage.inFlight = false) (fresh : job.settled = false) :
      Turn s orders (s.cache.settle id) s.deliveries

variable {s : Session} {orders : List (Document × Format)}

theorem turn_stepDelivery (h : s.Runs orders) (i : Nat) :
    s.Turn orders (s.stepDelivery i).cache (s.stepDelivery i).deliveries := by
  cases hd : s.deliveries[i]? with
  | none =>
    simp only [stepDelivery, hd]
    exact .still
  | some d =>
    have hlt : i < orders.length := by
      rw [← h.length]
      exact (List.getElem?_eq_some_iff.1 hd).1
    have ho := List.getElem?_eq_getElem hlt
    obtain ⟨e, hstep, -⟩ := Delivery.step_of_brings (h.brings i d _ hd ho)
    have hturn := Delivery.Stage.turn_next h.balanced (h.sound i d _ hd ho)
    rw [stepDelivery_of_getElem? hd, hstep]
    exact .step i d _ _ _ hd ho hturn

/-- An orderly move does one of these things. -/
theorem turn_play (h : s.Runs orders) {m : Move} (hm : m.isOrderly) :
    s.Turn orders (s.play m).cache (s.play m).deliveries := by
  have hplays := s.plays_play m
  generalize s.play m = t at hplays ⊢
  cases hplays with
  | still => exact .still
  | delivers _ i => exact turn_stepDelivery h i
  | writes id =>
    dsimp only
    cases hj : s.cache.jobs[id]? with
    | none =>
      have hsame : s.cache.advance id = s.cache := by simp only [advance, hj]
      rw [hsame]
      exact .still
    | some job =>
      cases hf : job.stage.inFlight with
      | true => exact .write id job hj hf
      | false =>
        rw [advance_of_ended hj hf]
        exact .still
  | settles id =>
    dsimp only
    cases hj : s.cache.jobs[id]? with
    | none =>
      have hsame : s.cache.settle id = s.cache := by simp only [Cache.settle, hj]
      rw [hsame]
      exact .still
    | some job =>
      cases hf : job.stage.inFlight with
      | true =>
        rw [settle_of_inFlight hj hf]
        exact .still
      | false =>
        cases hs : job.settled with
        | true =>
          rw [settle_of_settled hj hs]
          exact .still
        | false => exact .settle id job hj hf hs
  | calls | givesUp | abandons | callsOff => cases hm

/-- Every write in flight is waited for by a delivery. -/
def IsHeld (c : Cache) (deliveries : List Delivery) : Prop :=
  ∀ (id : Nat) (job : Job), c.jobs[id]? = some job → job.stage.inFlight →
    ∃ (i : Nat) (d : Delivery) (out content : String), deliveries[i]? = some d ∧
      d.stage = .waiting out content id

/-- All deliveries have ended. -/
def IsIdle (s : Session) : Prop := ∀ d ∈ s.deliveries, ∃ result, d.stage = .ended result

theorem IsHeld.of_step {i : Nat} {d d' : Delivery} {order : Document × Format} {c' : Cache}
    (h : IsHeld s.cache s.deliveries) (hd : s.deliveries[i]? = some d)
    (hturn : Delivery.Stage.Turn s.cache order.1 order.2 d.stage c' d'.stage) :
    IsHeld c' (s.deliveries.set i d') := by
  have hi : i < s.deliveries.length := (List.getElem?_eq_some_iff.1 hd).1
  have hkept : ∀ (id : Nat) (job : Job), s.cache.jobs[id]? = some job → job.stage.inFlight →
      ∃ (j : Nat) (e : Delivery) (out content : String), (s.deliveries.set i d')[j]? = some e ∧
        e.stage = .waiting out content id := by
    intro id job hj hf
    obtain ⟨j, e, out, content, he, hstage⟩ := h id job hj hf
    obtain ⟨e', he', hlast⟩ | ⟨-, -, -, job', there, -, ended⟩ := hturn.exists_waiting hd he hstage
    · exact ⟨j, e', out, content, he', hlast⟩
    · cases hj.symm.trans there
      rw [hf] at ended
      cases ended
  generalize hfirst : d.stage = first at hturn
  generalize hlast : d'.stage = last at hturn
  -- Only a step that begins a write brings one in flight, and then the delivery waits for it.
  cases hturn with
  | begins out content path artifact text free =>
    intro id job hj hf
    rcases getElem?_jobs_open_.1 hj with hj | ⟨rfl, -⟩
    · exact hkept id job hj hf
    · exact ⟨i, d', out, content, by simp [hi], hlast⟩
  | _ => exact hkept

/-- Writes in flight stay waited for. -/
theorem IsHeld.turn (h : IsHeld s.cache s.deliveries) {c' : Cache} {deliveries' : List Delivery}
    (hturn : s.Turn orders c' deliveries') : IsHeld c' deliveries' := by
  cases hturn with
  | still => exact h
  | step i d d' order c' there ordered turn => exact h.of_step there turn
  | write id job there inFlight =>
    intro other job' hj' hf'
    rcases (getElem?_modify_jobs there (turns_advance there inFlight).jobs).1 hj' with
      ⟨-, hj⟩ | ⟨rfl, -⟩
    · exact h other job' hj hf'
    · exact h other job there inFlight
  | settle id job there ended fresh =>
    intro other job' hj' hf'
    rcases (getElem?_modify_jobs there (jobs_settle there ended fresh)).1 hj' with
      ⟨-, hj⟩ | ⟨rfl, rfl⟩
    · exact h other job' hj hf'
    · rw [ended] at hf'
      cases hf'

/-- When all deliveries have ended, so have the writes. -/
theorem IsHeld.inFlight_eq_false (h : IsHeld s.cache s.deliveries) (hidle : s.IsIdle) {job : Job}
    (hj : job ∈ s.cache.jobs) : job.stage.inFlight = false := by
  by_contra hf
  rw [Bool.not_eq_false] at hf
  obtain ⟨id, hid⟩ := List.getElem?_of_mem hj
  obtain ⟨i, d, out, content, hd, hstage⟩ := h id job hid hf
  obtain ⟨result, hended⟩ := hidle d (List.mem_of_getElem? hd)
  rw [hended] at hstage
  cases hstage

end Session
end SchemaArtifacts
