import SchemaArtifacts.Proofs.Disk.Tree
import SchemaArtifacts.Proofs.Session.Durable
import SchemaArtifacts.Session.Run

/-!
# What a delivery has found is there

Nothing that is at the path of an artifact is ever taken away by the exports of a cache: a write puts
another file in its place at most. So when a delivery has ended without a failure, there is something
at the path of its artifact and stays there, unless the artifact has no path at all, whatever the cache
holds. And when all deliveries have ended, the cache has taken note of every write.

## Main definitions

* `Document.IsSkipped` — an export of a document is skipped, whatever the cache holds
* `Delivery.Stage.HasFound` — what a delivery has found is there
* `Session.IsAwaited` — the end of every write that is not noted is waited for

## Main results

* `Job.Stroke.exists_` — a step of a write takes nothing away
* `Session.haveFound_playAll` — what deliveries have found stays there
* `Session.IsAwaited.quiescent` — when all deliveries have ended, every write has ended and is noted
-/

namespace SchemaArtifacts

open Cache Disk Relation

/-- A step of a write takes nothing away from the path of an artifact. -/
theorem Job.Stroke.exists_ {root other : AbsolutePath} {job : Job} {d d' : Disk} {stage : Stage}
    {dir dir' : List String} {name name' : String} (h : job.Stroke d d' stage)
    (hfree : IsFreeBelow d root) (hpath : root.IsLasting job.path dir name)
    (hfull : ∀ n, job.stage = .placing n →
      d.content? (Cache.temporary job.path) = some job.content)
    (hother : root.IsLasting other dir' name') (hthere : d.exists_ other) : d'.exists_ other := by
  have hkeeps := h.keeps hfree hpath hfull
  obtain ⟨place, e, hlocate, hentry⟩ := exists_iff.1 hthere
  suffices hsome : (d'.get? place).isSome by
    obtain ⟨e', he'⟩ := Option.isSome_iff_exists.1 hsome
    exact exists_iff.2 ⟨place, e', hkeeps.locate hlocate, he'⟩
  rw [hother.path] at hlocate
  obtain ⟨top, hr, hplace, -⟩ := hfree.exists_place (by simp) hother.plain hlocate
  have htemporary : ∀ temp aim, d.locate aim (Cache.temporary job.path) = .ok temp →
      place ≠ temp := by
    intro temp aim hlocate'
    rw [hpath.temporary] at hlocate'
    obtain ⟨top', hr', htemp, -⟩ := hfree.exists_place (by simp) hpath.plain_temporary hlocate'
    rw [hplace, htemp, hr.unique hr']
    exact (hother.temporary_ne top dir name).symm
  cases h with
  | grew _ _ grows =>
    rcases grows place with heq | ⟨-, hdirectory, -⟩
    · rw [heq, hentry]
      rfl
    · rw [hdirectory]
      rfl
  | wrote temp text _ located =>
    rw [get?_set_ne (htemporary temp _ located), hentry]
    rfl
  | placed n old new e' ready source target entry free =>
    by_cases hnew : place = new
    · subst hnew
      rw [get?_set_self (by simp [hplace])]
      rfl
    · rw [get?_set_ne hnew, get?_erase_ne (htemporary old _ source), hentry]
      rfl

namespace Session

variable {s t : Session} {orders : List (Document × Format)} {c' : Cache}
  {deliveries' : List Delivery} {path : AbsolutePath} {dir : List String} {name : String}

/-- Deliveries, their writes and the cache take nothing away from the path of an artifact. -/
theorem Turn.exists_ (h : s.Turn orders c' deliveries') (hs : s.cache.Steady)
    (hpath : s.cache.root.IsLasting path dir name) (hthere : s.cache.disk.exists_ path) :
    c'.disk.exists_ path := by
  cases h with
  | still => exact hthere
  | step i d d' order c' there ordered turn =>
    generalize d.stage = stage at turn
    generalize d'.stage = stage' at turn
    cases turn <;> exact hthere
  | write id job there inFlight =>
    obtain ⟨stage, d', hturns, hstroke⟩ := exists_stroke_advance there inFlight
    obtain ⟨dir', name', hpath'⟩ := hs.lasting id job there
    rw [hturns.disk]
    exact hstroke.exists_ hs.free hpath' (fun n => hs.placing id job n there) hpath hthere
  | settle id job there ended fresh =>
    rw [disk_settle]
    exact hthere

end Session

/-! ## What deliveries have found -/

/-- An export of a document is skipped, whatever the cache holds. -/
structure Document.IsSkipped (root : AbsolutePath) (format : Format) (doc : Document) : Prop where
  none : ∀ out path, ¬ doc.HasArtifact root format out path
  always : ∀ c : Cache, c.root = root →
    Delivery.Stage.next doc format c .ready = (c, .ended (.ok .skipped))

/-- There is something at the path of the artifact of a document. -/
def Document.IsThere (c : Cache) (format : Format) (doc : Document) : Prop :=
  ∃ out path, doc.HasArtifact c.root format out path ∧ c.disk.exists_ path

theorem Document.IsSkipped.not_isThere {c : Cache} {format : Format} {doc : Document}
    (h : doc.IsSkipped c.root format) : ¬ doc.IsThere c format :=
  fun ⟨out, path, hartifact, _⟩ => h.none out path hartifact

namespace Delivery

variable {c c' : Cache} {doc : Document} {format : Format} {stage stage' : Stage}

/-- What a delivery has found is there: the artifact, or that there can be none. -/
structure Stage.HasFound (c : Cache) (doc : Document) (format : Format) (stage : Stage) : Prop where
  answered : ∀ out, stage = .answered out true → doc.IsThere c format
  cached : stage = .ended (.ok .cached) → doc.IsThere c format
  skipped : stage = .ended (.ok .skipped) → doc.IsSkipped c.root format
  document : stage ≠ .ended (.ok .noDocument)

/-- A delivery that is refused for good is skipped or has failed. -/
theorem Stage.result_of_refused {result : Except Failure ExportStatus}
    (hnone : ∀ out path, ¬ doc.HasArtifact c.root format out path)
    (halways : ∀ c' : Cache, c'.root = c.root →
      Stage.next doc format c' .ready = (c', .ended result)) :
    result = .ok .skipped ∨ ∃ e, result = .error e := by
  have hready := congrArg Prod.snd (halways c rfl)
  simp only [Stage.next] at hready
  cases hstart : doc.startBelow c.root format with
  | error e =>
    rw [hstart] at hready
    exact Or.inr ⟨e, (Stage.ended.inj hready).symm⟩
  | ok out =>
    cases hpath : Name.locate c.root out with
    | ok path => exact absurd ⟨hstart, hpath⟩ (hnone out path)
    | error e =>
      rw [hstart] at hready
      simp only [look, Cache.locate, hpath] at hready
      have hresult := (Stage.ended.inj hready).symm
      split at hresult
      · exact Or.inl hresult
      · exact Or.inr ⟨_, hresult⟩

/-- Who has been served has its artifact written, or has failed. -/
theorem Stage.result_of_served (c : Cache) (id : Nat) :
    ∃ result, Stage.served c id = .ended result ∧
      (result = .ok .written ∨ ∃ e, result = .error e) := by
  refine ⟨_, rfl, ?_⟩
  cases c.outcome id with
  | ok path => exact Or.inl rfl
  | error e => exact Or.inr ⟨e, rfl⟩

theorem Stage.hasFound_served (c c' : Cache) (id : Nat) :
    (Stage.served c id).HasFound c' doc format := by
  obtain ⟨result, hserved, hresult⟩ := Stage.result_of_served c id
  rw [hserved]
  rcases hresult with rfl | ⟨e, rfl⟩ <;> constructor <;> simp

theorem Stage.HasFound.turn (h : stage.HasFound c doc format) (hs : c.Steady)
    (hturn : Turn c doc format stage c' stage') : stage'.HasFound c' doc format := by
  cases hturn with
  | refused result other none always =>
    rcases Stage.result_of_refused none always with rfl | ⟨e, rfl⟩
    · exact ⟨by simp, by simp, fun _ => ⟨none, always⟩, by simp⟩
    · constructor <;> simp
  | known out path artifact written =>
    have hmem : path ∈ c.written := by simpa [isWritten] using written
    obtain ⟨id, job, hj, rfl, hdone, -⟩ := (hs.balanced.mem_written path).1 hmem
    have hthere := exists_of_content? (hs.done id job hj hdone)
    exact ⟨by simp, fun _ => ⟨out, job.path, artifact, hthere⟩, by simp, by simp⟩
  | answers out path artifact =>
    refine ⟨fun out' hanswer => ?_, by simp, by simp, by simp⟩
    exact ⟨out, path, artifact, (Stage.answered.inj hanswer).2⟩
  | present out => exact ⟨by simp, fun _ => h.answered out rfl, by simp, by simp⟩
  | late out content id => exact Stage.hasFound_served c c id
  | served out content id => exact Stage.hasFound_served c c id
  | rests result => exact h
  | _ => constructor <;> simp [Stage.waiting]

end Delivery

namespace Session

variable {s t : Session} {orders : List (Document × Format)} {c' : Cache}
  {deliveries' : List Delivery}

/-- What each delivery has found is there. -/
def HaveFound (c : Cache) (orders : List (Document × Format)) (deliveries : List Delivery) : Prop :=
  ∀ (i : Nat) (d : Delivery) (order : Document × Format), deliveries[i]? = some d →
    orders[i]? = some order → d.stage.HasFound c order.1 order.2

/-- What deliveries have found stays there. -/
theorem HaveFound.turn (h : HaveFound s.cache orders s.deliveries) (hs : s.IsSteady orders)
    (hturn : s.Turn orders c' deliveries') (hroot : c'.root = s.cache.root) :
    HaveFound c' orders deliveries' := by
  have hthere : ∀ order ∈ orders, order.1.IsThere s.cache order.2 → order.1.IsThere c' order.2 := by
    rintro order horder ⟨out, path, hartifact, hpresent⟩
    obtain ⟨dir, name, hpath⟩ := hartifact.exists_isLasting (hs.known order horder)
    exact ⟨out, path, by rwa [hroot], hturn.exists_ hs.steady hpath hpresent⟩
  have hlater : ∀ (i : Nat) (d : Delivery) (order : Document × Format), s.deliveries[i]? = some d →
      orders[i]? = some order → d.stage.HasFound c' order.1 order.2 := by
    intro i d order hd ho
    have hfound := h i d order hd ho
    have hkept := hthere order (List.mem_of_getElem? ho)
    exact ⟨fun out hout => hkept (hfound.answered out hout), fun hcached => hkept (hfound.cached hcached),
      fun hskipped => by rw [hroot]; exact hfound.skipped hskipped, hfound.document⟩
  cases hturn with
  | step i d d' order c' there ordered turn =>
    refine forall_getElem?_set (fun order' ho => ?_) fun j e order' _ he ho => hlater j e order' he ho
    cases ordered.symm.trans ho
    exact (h i d order there ordered).turn hs.steady turn
  | _ => exact hlater

theorem haveFound_playAll (h : HaveFound s.cache orders s.deliveries) (hs : s.IsSteady orders)
    {moves : List Move} (horderly : ∀ m ∈ moves, m.isOrderly) :
    HaveFound (s.playAll moves).cache orders (s.playAll moves).deliveries := by
  induction moves generalizing s with
  | nil => exact h
  | cons m moves ih =>
    obtain ⟨hm, hrest⟩ := List.forall_mem_cons.1 horderly
    exact ih (h.turn hs (turn_play hs.runs hm) (operation_play s m).sameWorld.root) (hs.move hm) hrest

theorem haveFound_ofDocuments (c : Cache) (format : Format) (limit : Nat) (docs : List Document)
    (orders : List (Document × Format)) :
    HaveFound c orders (ofDocuments c format limit docs).deliveries := by
  intro i d order hd _
  obtain ⟨doc, -, rfl⟩ := List.mem_map.1 (List.mem_of_getElem? hd)
  constructor <;> simp

/-- An export that has ended without a failure has found its artifact or that there can be none, or
has its artifact written, which is there. -/
theorem IsSteady.there_or_isSkipped (hs : s.IsSteady orders)
    (h : HaveFound s.cache orders s.deliveries) {i : Nat} {d : Delivery}
    {order : Document × Format} (hd : s.deliveries[i]? = some d) (ho : orders[i]? = some order)
    {status : ExportStatus} (hended : d.stage = .ended (.ok status)) :
    (status = .written ∨ status = .cached) ∧ order.1.IsThere s.cache order.2 ∨
      status = .skipped ∧ order.1.IsSkipped s.cache.root order.2 := by
  have hfound := h i d order hd ho
  cases status with
  | written =>
    have hsound := hs.runs.sound i d order hd ho
    rw [hended] at hsound
    cases hsound with
    | ended _ other => exact absurd rfl other
    | written out content id job artifact text there done =>
      have hthere := exists_of_content? (hs.steady.done id job there done)
      exact Or.inl ⟨Or.inl rfl, out, job.path, artifact, hthere⟩
  | cached => exact Or.inl ⟨Or.inr rfl, hfound.cached hended⟩
  | skipped => exact Or.inr ⟨rfl, hfound.skipped hended⟩
  | noDocument => exact absurd hended hfound.document

/-! ## Ends are waited for -/

/-- The end of every write that is not noted is waited for by a delivery. -/
def IsAwaited (c : Cache) (deliveries : List Delivery) : Prop :=
  ∀ (id : Nat) (job : Job), c.jobs[id]? = some job → job.settled = false →
    ∃ (i : Nat) (d : Delivery) (out content : String), deliveries[i]? = some d ∧
      d.stage = .waiting out content id

theorem IsAwaited.turn (h : IsAwaited s.cache s.deliveries)
    (hturn : s.Turn orders c' deliveries') : IsAwaited c' deliveries' := by
  cases hturn with
  | still => exact h
  | step i d d' order c' there ordered turn =>
    have hi := (List.getElem?_eq_some_iff.1 there).1
    have hkept : ∀ (id : Nat) (job : Job), s.cache.jobs[id]? = some job → job.settled = false →
        ∃ (j : Nat) (e : Delivery) (out content : String), (s.deliveries.set i d')[j]? = some e ∧
          e.stage = .waiting out content id := by
      intro id job hj hopen
      obtain ⟨j, e, out, content, he, hstage⟩ := h id job hj hopen
      obtain ⟨e', he', hlast⟩ | ⟨-, -, -, -, -, settled, -⟩ := turn.exists_waiting there he hstage
      · exact ⟨j, e', out, content, he', hlast⟩
      · simp [isSettled, hj, hopen] at settled
    generalize hfirst : d.stage = first at turn
    generalize hlast : d'.stage = last at turn
    cases turn with
    | begins out content path artifact text free =>
      intro id job hj hopen
      rcases getElem?_jobs_open_.1 hj with hj | ⟨rfl, -⟩
      · exact hkept id job hj hopen
      · exact ⟨i, d', out, content, by simp [hi], hlast⟩
    | _ => exact hkept
  | write id job there inFlight =>
    intro other job' hj' hopen
    rcases (getElem?_modify_jobs there (turns_advance there inFlight).jobs).1 hj' with
      ⟨-, hj⟩ | ⟨rfl, rfl⟩
    · exact h other job' hj hopen
    · exact h other job there hopen
  | settle id job there ended fresh =>
    intro other job' hj' hopen
    rcases (getElem?_modify_jobs there (jobs_settle there ended fresh)).1 hj' with
      ⟨-, hj⟩ | ⟨rfl, rfl⟩
    · exact h other job' hj hopen
    · cases hopen

/-- When all deliveries have ended, every write has ended and is noted. -/
theorem IsAwaited.quiescent (h : IsAwaited s.cache s.deliveries) (hb : s.cache.Balanced)
    (hidle : s.IsIdle) : s.cache.Quiescent := by
  intro job hjob
  obtain ⟨id, hid⟩ := List.getElem?_of_mem hjob
  have hsettled : job.settled := by
    by_contra hopen
    obtain ⟨i, d, out, content, hd, hstage⟩ := h id job hid (by simpa using hopen)
    obtain ⟨result, hended⟩ := hidle d (List.mem_of_getElem? hd)
    rw [hended] at hstage
    cases hstage
  exact ⟨by simpa [Stage.inFlight] using hb.ended id job hid hsettled, hsettled⟩

theorem isAwaited_of_quiescent {c : Cache} (h : c.Quiescent) (deliveries : List Delivery) :
    IsAwaited c deliveries := by
  intro id job hj hopen
  rw [(h job (List.mem_of_getElem? hj)).2] at hopen
  cases hopen

/-- Ends are waited for, whatever is done with a cache. -/
theorem IsAwaited.deed (h : IsAwaited s.cache s.deliveries) (hs : s.IsSteady orders)
    (hdeed : s.Deed t) : IsAwaited t.cache t.deliveries := by
  cases hdeed with
  | move m orderly => exact h.turn (turn_play hs.runs orderly)
  | order idle limit orders' known =>
    exact isAwaited_of_quiescent (h.quiescent hs.steady.balanced idle) _
  | clean => exact h
  | renew idle backoff => exact isAwaited_of_quiescent (by simp [Cache.Quiescent, Cache.renew]) _
  | world faults draws => exact h

theorem isAwaited_of_deeds (h : IsAwaited s.cache s.deliveries) (hs : s.IsSteady orders)
    (hdeeds : ReflTransGen Deed s t) : IsAwaited t.cache t.deliveries := by
  induction hdeeds with
  | refl => exact h
  | tail hbefore hdeed ih =>
    obtain ⟨orders', hsteady⟩ := steady_of_deeds hs hbefore
    exact ih.deed hsteady hdeed

end Session
end SchemaArtifacts
