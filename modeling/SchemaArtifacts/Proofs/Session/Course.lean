import SchemaArtifacts.Proofs.Cache.World
import SchemaArtifacts.Proofs.Export.Artifact

/-!
# The course of a delivery

What a delivery of a document does next depends on the document, the format, the cache and the stage
alone. At every stage it has settled some things for good: the name of its artifact and the path,
then the text, and a write of its path that it waits for. A delivery that has ended with its
artifact written has seen the end of such a write.

## Main definitions

* `Delivery.Brings` — a delivery is for a document and a format
* `Delivery.Stage.next` — what such a delivery does next
* `Delivery.Stage.IsSound` — what it has settled
* `Session.wroteAt` — a delivery has ended with its artifact written, as a test

## Main results

* `Delivery.step_of_brings` — a delivery does what its stage says
* `Session.runs_playAll` — what the deliveries have settled stays settled
-/

namespace SchemaArtifacts

open Cache

namespace Name

theorem strip_fromTop (name : String) : strip (Address.fromTop name) = strip name := by
  unfold strip Address.fromTop
  split
  · rfl
  · simp

theorem locate_ofOutput {root path : AbsolutePath} {out : String} (h : locate root out = .ok path) :
    locate root (Address.ofOutput out).url = .ok path := by
  obtain ⟨ss, hs, rfl⟩ := exists_segments_of_locate h
  have hurl : segments (Address.ofOutput out).url = .ok ss := by
    unfold Address.ofOutput
    dsimp only
    split
    · exact hs
    · exact segments_of_strip_eq hs (strip_fromTop out)
  simp [locate, hurl, Except.map]

end Name

namespace Cache

variable {c c' : Cache} {path : AbsolutePath} {content : String}

/-- The write that a text for a path leads to, and the cache then. -/
def seek (c : Cache) (path : AbsolutePath) (content : String) : Cache × Nat :=
  match c.pendingJob? path with
  | some id => (c, id)
  | none => (c.open_ path content, c.jobs.length)

end Cache

theorem Caller.step_of_asking {c : Cache} {out content : String} {path : AbsolutePath}
    (h : Name.locate c.root out = .ok path) :
    Caller.step { address := .ofOutput out, content } c =
      ((c.seek path content).1,
        { address := .ofOutput out, content,
          stage := join (c.seek path content).1 (c.seek path content).2 }) := by
  have hurl : c.locate (Address.ofOutput out).url = .ok path := Name.locate_ofOutput h
  simp only [step, run_request, Address.isLocal_ofOutput, Bool.false_eq_true, ↓reduceIte, hurl, seek]
  cases c.pendingJob? path <;> rfl

namespace Delivery

theorem stage_of_result? {d : Delivery} {result : Except Failure ExportStatus}
    (h : d.result? = some result) : d.stage = .ended result := by
  unfold result? at h
  split at h
  · rename_i hstage
    cases h
    exact hstage
  · cases h

/-- A delivery brings a document in a format to a cache with a root. -/
structure Brings (d : Delivery) (root : AbsolutePath) (doc : Document) (format : Format) :
    Prop where
  standsFor : d.exporter.StandsFor root doc
  format : d.exporter.format = format

/-- The stage of a delivery that waits for a write. -/
def Stage.waiting (out content : String) (id : Nat) : Stage :=
  .storing { address := .ofOutput out, content, stage := .waiting id }

/-- The stage of a delivery when its write has ended. -/
def Stage.served (c : Cache) (id : Nat) : Stage :=
  .ended ((c.outcome id).map fun _ => .written)

/-- What a delivery of a document in a format does next, told without its exporter. -/
def Stage.next (doc : Document) (format : Format) (c : Cache) : Stage → Cache × Stage
  | .ready =>
    (c, match doc.startBelow c.root format with
      | .error e => .ended (.error e)
      | .ok out => look c out)
  | .looking out path => (c, .answered out (c.disk.exists_ path))
  | .answered _ true => (c, .ended (.ok .cached))
  | .answered out false =>
    match doc.textBelow c.root format with
    | .error e => (c, .ended (.error e))
    | .ok content =>
      let (c, caller) := Caller.step { address := .ofOutput out, content } c
      (c, await caller)
  | .storing caller =>
    let (c, caller) := caller.step c
    (c, await caller)
  | .ended result => (c, .ended result)

variable {d : Delivery} {c c' : Cache} {doc : Document} {format : Format} {stage : Stage}
  {out content : String} {path : AbsolutePath} {id : Nat}

theorem step_of_brings (h : d.Brings c.root doc format) :
    ∃ e, d.step c = ((d.stage.next doc format c).1, ⟨e, (d.stage.next doc format c).2⟩) ∧
      Brings ⟨e, (d.stage.next doc format c).2⟩ c.root doc format := by
  obtain ⟨e, stage⟩ := d
  obtain ⟨hfor, rfl⟩ := h
  unfold step
  cases stage with
  | ready =>
    obtain ⟨e', hrun, hfor', ⟨home, rfl⟩⟩ := Exporter.run_start hfor
    dsimp only [Stage.next]
    rw [hrun]
    refine ⟨_, ?_, hfor', rfl⟩
    cases doc.startBelow c.root e.format <;> rfl
  | looking out path => exact ⟨e, rfl, hfor, rfl⟩
  | answered out present =>
    cases present with
    | true => exact ⟨e, rfl, hfor, rfl⟩
    | false =>
      obtain ⟨e', hrun, hfor', ⟨home, rfl⟩⟩ := Exporter.run_contents hfor
      dsimp only [Stage.next]
      rw [hrun]
      cases doc.textBelow c.root e.format with
      | error err => exact ⟨_, rfl, hfor', rfl⟩
      | ok content => exact ⟨_, rfl, hfor', rfl⟩
  | storing caller => exact ⟨e, rfl, hfor, rfl⟩
  | ended result => exact ⟨e, rfl, hfor, rfl⟩

theorem next_answered (h : Name.locate c.root out = .ok path)
    (htext : doc.textBelow c.root format = .ok content) :
    Stage.next doc format c (.answered out false) = ((c.seek path content).1,
      if (c.seek path content).1.hasEnded (c.seek path content).2 then
        .served (c.seek path content).1 (c.seek path content).2
      else .waiting out content (c.seek path content).2) := by
  simp only [Stage.next, htext, Caller.step_of_asking h, Caller.join]
  split <;> rfl

theorem next_waiting : Stage.next doc format c (.waiting out content id) =
    (c, if c.isSettled id then .served c id else .waiting out content id) := by
  simp only [Stage.next, Stage.waiting, Caller.step, Caller.wait]
  split <;> rfl

/-- What a delivery at a stage has settled. -/
inductive Stage.IsSound (c : Cache) (doc : Document) (format : Format) : Stage → Prop where
  | ready : IsSound c doc format .ready
  | looking (out : String) (path : AbsolutePath) (artifact : doc.HasArtifact c.root format out path) :
      IsSound c doc format (.looking out path)
  | answered (out : String) (present : Bool) (path : AbsolutePath)
      (artifact : doc.HasArtifact c.root format out path) :
      IsSound c doc format (.answered out present)
  | waiting (out content : String) (id : Nat) (job : Job)
      (artifact : doc.HasArtifact c.root format out job.path)
      (text : doc.textBelow c.root format = .ok content) (there : c.jobs[id]? = some job) :
      IsSound c doc format (.waiting out content id)
  | written (out content : String) (id : Nat) (job : Job)
      (artifact : doc.HasArtifact c.root format out job.path)
      (text : doc.textBelow c.root format = .ok content) (there : c.jobs[id]? = some job)
      (done : job.stage.isDone) : IsSound c doc format (.ended (.ok .written))
  | ended (result : Except Failure ExportStatus) (other : result ≠ .ok .written) :
      IsSound c doc format (.ended result)

/-- What has been settled stays settled, whatever is done to the cache. -/
theorem Stage.IsSound.later (h : stage.IsSound c doc format) (hop : c.Operation c') :
    stage.IsSound c' doc format := by
  have hroot := hop.sameWorld.root
  cases h with
  | ready => exact .ready
  | looking out path artifact => exact .looking out path (by rwa [hroot])
  | answered out present path artifact => exact .answered out present path (by rwa [hroot])
  | waiting out content id job artifact text there =>
    obtain ⟨job', there', hlater⟩ := hop.books.exists_later there
    exact .waiting out content id job' (by rwa [hroot, hlater.path]) (by rwa [hroot]) there'
  | written out content id job artifact text there done =>
    obtain ⟨job', there', hlater⟩ := hop.books.exists_later there
    have hended : job.stage.inFlight = false := by
      cases hs : job.stage <;> rw [hs] at done
      case ended => rfl
      all_goals cases done
    refine .written out content id job' (by rwa [hroot, hlater.path]) (by rwa [hroot]) there' ?_
    rwa [hlater.stage hended]
  | ended result other => exact .ended result other

theorem look_isSound (h : doc.startBelow c.root format = .ok out) :
    (look c out).IsSound c doc format := by
  unfold look
  split
  · rename_i path hpath
    split
    · exact .ended _ (by simp)
    · exact .looking out path ⟨h, hpath⟩
  · refine .ended _ ?_
    split <;> simp

/-- When a write has ended, whoever waited for it has an end too: the artifact is written if the
write is done. -/
theorem served_isSound {job : Job} (hartifact : doc.HasArtifact c.root format out job.path)
    (htext : doc.textBelow c.root format = .ok content) (hj : c.jobs[id]? = some job)
    (hended : job.stage.inFlight = false) : (Stage.served c id).IsSound c doc format := by
  unfold Stage.served Cache.outcome
  rw [hj]
  dsimp only
  cases hs : job.stage with
  | ended outcome =>
    cases outcome with
    | ok _ => exact .written out content id job hartifact htext hj (by rw [hs]; rfl)
    | error e => exact .ended _ (by simp [Stage.outcome?, Except.map])
  | _ =>
    rw [hs] at hended
    cases hended

end Delivery

namespace Cache

variable {c : Cache} {id : Nat} {job : Job}

/-- The write that a text leads to is one of its path. -/
theorem Balanced.exists_seek (h : c.Balanced) (path : AbsolutePath) (content : String) :
    ∃ job, (c.seek path content).1.jobs[(c.seek path content).2]? = some job ∧ job.path = path := by
  unfold seek
  cases hp : c.pendingJob? path with
  | none => exact ⟨_, getElem?_jobs_open_.2 (Or.inr ⟨rfl, rfl⟩), rfl⟩
  | some id =>
    obtain ⟨job, hj, hpath, -⟩ := h.exists_of_pendingJob? hp
    exact ⟨job, hj, hpath⟩

theorem inFlight_eq_false_of_hasEnded (hj : c.jobs[id]? = some job) (h : c.hasEnded id) :
    job.stage.inFlight = false := by
  unfold hasEnded at h
  rw [hj] at h
  simpa [Stage.inFlight] using h

theorem Balanced.inFlight_eq_false_of_isSettled (hb : c.Balanced) (hj : c.jobs[id]? = some job)
    (h : c.isSettled id) : job.stage.inFlight = false := by
  unfold isSettled at h
  rw [hj] at h
  exact hb.ended id job hj (by simpa using h)

end Cache

/-- What a delivery settles next is right, if what it has settled is. -/
theorem Delivery.Stage.IsSound.next {c : Cache} {doc : Document} {format : Format}
    {stage : Delivery.Stage} (hb : c.Balanced) (h : stage.IsSound c doc format) :
    (Stage.next doc format c stage).2.IsSound (Stage.next doc format c stage).1 doc format := by
  cases h with
  | ready =>
    dsimp only [Stage.next]
    split
    · exact .ended _ (by simp)
    · exact look_isSound ‹_›
  | looking out path artifact => exact .answered out _ path artifact
  | answered out present path artifact =>
    cases present with
    | true => exact .ended _ (by simp)
    | false =>
      cases htext : doc.textBelow c.root format with
      | error e =>
        simp only [Stage.next, htext]
        exact .ended _ (by simp)
      | ok content =>
        rw [next_answered artifact.path htext]
        obtain ⟨job, hj, rfl⟩ := hb.exists_seek path content
        have hroot : (c.seek job.path content).1.root = c.root := by
          unfold seek
          split <;> rfl
        rw [← hroot] at artifact htext
        dsimp only
        split
        · exact served_isSound artifact htext hj (inFlight_eq_false_of_hasEnded hj ‹_›)
        · exact .waiting out content _ job artifact htext hj
  | waiting out content id job artifact text there =>
    rw [next_waiting]
    dsimp only
    split
    · exact served_isSound artifact text there (hb.inFlight_eq_false_of_isSettled there ‹_›)
    · exact .waiting out content id job artifact text there
  | written out content id job artifact text there done =>
    exact .written out content id job artifact text there done
  | ended result other => exact .ended result other

/-- What holds of each item and what stands beside it still does when it holds of an item put in place of
another. -/
theorem forall_getElem?_set {α β : Type} {as : List α} {bs : List β} {i : Nat} {a : α}
    {P : α → β → Prop} (hself : ∀ b, bs[i]? = some b → P a b)
    (hrest : ∀ (j : Nat) (a' : α) (b : β), i ≠ j → as[j]? = some a' → bs[j]? = some b → P a' b) :
    ∀ (j : Nat) (a' : α) (b : β), (as.set i a)[j]? = some a' → bs[j]? = some b → P a' b := by
  intro j a' b ha hb
  by_cases hij : i = j
  · subst hij
    obtain rfl : a = a' := by
      have hi : i < as.length := by simpa using (List.getElem?_eq_some_iff.1 ha).1
      exact Option.some.inj ((List.getElem?_set_self hi).symm.trans ha)
    exact hself b hb
  · rw [List.getElem?_set_ne hij] at ha
    exact hrest j a' b hij ha hb

/-- An item is still there when an item is replaced, or it is that one. -/
theorem exists_getElem?_set {α : Type} {as : List α} {j : Nat} {b : α} (h : as[j]? = some b) (i : Nat)
    (a : α) : ∃ b', (as.set i a)[j]? = some b' ∧ (i = j ∧ b' = a ∨ i ≠ j ∧ b' = b) := by
  by_cases hij : i = j
  · subst hij
    exact ⟨a, List.getElem?_set_self (List.getElem?_eq_some_iff.1 h).1, .inl ⟨rfl, rfl⟩⟩
  · exact ⟨b, by rw [List.getElem?_set_ne hij, h], .inr ⟨hij, rfl⟩⟩

namespace Session

/-- The deliveries of a session are those of some documents, each in its format, and what they have
settled is right. -/
structure Runs (s : Session) (orders : List (Document × Format)) : Prop where
  balanced : s.cache.Balanced
  length : s.deliveries.length = orders.length
  brings : ∀ (i : Nat) (d : Delivery) (order : Document × Format), s.deliveries[i]? = some d →
    orders[i]? = some order → d.Brings s.cache.root order.1 order.2
  sound : ∀ (i : Nat) (d : Delivery) (order : Document × Format), s.deliveries[i]? = some d →
    orders[i]? = some order → d.stage.IsSound s.cache order.1 order.2

variable {s : Session} {orders : List (Document × Format)}

theorem Runs.exists_order (h : s.Runs orders) {i : Nat} {d : Delivery}
    (hd : s.deliveries[i]? = some d) : ∃ order, orders[i]? = some order := by
  have hlt : i < orders.length := by
    rw [← h.length]
    exact (List.getElem?_eq_some_iff.1 hd).1
  exact ⟨_, List.getElem?_eq_getElem hlt⟩

/-- A change to the cache that leaves the deliveries alone. -/
theorem Runs.of_operation {t : Session} (h : s.Runs orders) (hop : s.cache.Operation t.cache)
    (hd : t.deliveries = s.deliveries) : t.Runs orders := by
  refine ⟨hop.books.balanced h.balanced, by rw [hd, h.length], ?_, ?_⟩
  · intro i d order hi ho
    rw [hop.sameWorld.root]
    exact h.brings i d order (by rwa [← hd]) ho
  · intro i d order hi ho
    exact (h.sound i d order (by rwa [← hd]) ho).later hop

/-- One delivery goes on, with or without an operation of the cache. -/
theorem Runs.of_set {t : Session} {i : Nat} {d : Delivery} (h : s.Runs orders)
    (hop : s.cache.Operation t.cache) (hd : t.deliveries = s.deliveries.set i d)
    (hi : ∀ order, orders[i]? = some order → d.Brings s.cache.root order.1 order.2 ∧
      d.stage.IsSound t.cache order.1 order.2) : t.Runs orders := by
  refine ⟨hop.books.balanced h.balanced, by rw [hd, List.length_set, h.length], ?_, ?_⟩
  · rw [hop.sameWorld.root, hd]
    exact forall_getElem?_set (fun order ho => (hi order ho).1)
      fun j d' order _ hj ho => h.brings j d' order hj ho
  · rw [hd]
    exact forall_getElem?_set (fun order ho => (hi order ho).2)
      fun j d' order _ hj ho => (h.sound j d' order hj ho).later hop

theorem Runs.stepDelivery (h : s.Runs orders) (i : Nat) : (s.stepDelivery i).Runs orders := by
  have hop := operation_stepDelivery s i
  cases hd : s.deliveries[i]? with
  | none =>
    simp only [Session.stepDelivery, hd]
    exact h
  | some d =>
    rw [stepDelivery_of_getElem? hd] at hop ⊢
    refine h.of_set hop rfl fun order ho => ?_
    obtain ⟨e, hstep, hbrings⟩ := Delivery.step_of_brings (h.brings i d order hd ho)
    have hsound := (h.sound i d order hd ho).next h.balanced
    simp only [putDelivery, hstep]
    exact ⟨hbrings, hsound⟩

theorem Runs.play (h : s.Runs orders) (m : Move) : (s.play m).Runs orders := by
  have hop := operation_play s m
  have hplays := s.plays_play m
  generalize s.play m = t at hop hplays ⊢
  cases hplays with
  | still => exact h
  | delivers _ i => exact h.stepDelivery i
  | abandons i d there =>
    refine h.of_set hop rfl fun order ho => ?_
    have hbrings := h.brings i d order there ho
    have hsound := h.sound i d order there ho
    unfold Delivery.abandon
    split
    · exact ⟨hbrings, hsound⟩
    · exact ⟨⟨hbrings.standsFor, hbrings.format⟩, .ended _ (by simp)⟩
  | _ => exact h.of_operation hop rfl

/-- What the deliveries of a session have settled stays settled, whatever the course of moves. -/
theorem runs_playAll (h : s.Runs orders) (moves : List Move) : (s.playAll moves).Runs orders := by
  induction moves generalizing s with
  | nil => exact h
  | cons m moves ih => exact ih (h.play m)

/-- The delivery at a place among the deliveries has ended with its artifact written. -/
def wroteAt (s : Session) (i : Nat) : Bool :=
  match s.deliveries[i]?.bind Delivery.result? with
  | some (.ok .written) => true
  | _ => false

theorem exists_of_wroteAt {i : Nat} (h : s.wroteAt i) :
    ∃ d, s.deliveries[i]? = some d ∧ d.result? = some (.ok .written) := by
  unfold wroteAt at h
  split at h
  · rename_i hresult
    exact Option.bind_eq_some_iff.1 hresult
  · cases h

theorem runs_ofDocuments {c : Cache} (h : c.Balanced) (format : Format) (limit : Nat)
    (docs : List Document) :
    (ofDocuments c format limit docs).Runs (docs.map fun doc => (doc, format)) := by
  refine ⟨h, by simp [ofDocuments], ?_, ?_⟩
  · intro i d order hi ho
    simp only [ofDocuments, List.getElem?_map, Option.map_eq_some_iff] at hi ho
    obtain ⟨doc, hdoc, rfl⟩ := hi
    obtain ⟨doc', hdoc', rfl⟩ := ho
    cases hdoc.symm.trans hdoc'
    exact ⟨⟨rfl, by simp⟩, rfl⟩
  · intro i d order hi ho
    simp only [ofDocuments, List.getElem?_map, Option.map_eq_some_iff] at hi
    obtain ⟨doc, hdoc, rfl⟩ := hi
    exact .ready

end Session
end SchemaArtifacts
