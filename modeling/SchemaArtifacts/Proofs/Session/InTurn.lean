import SchemaArtifacts.Proofs.Cache.Origin
import SchemaArtifacts.Proofs.Disk.Tree
import SchemaArtifacts.Proofs.Session.Lone

/-!
# One delivery after the other

When at most one delivery may be under way, each begins with all writes of the earlier ones ended and
noted. So no delivery joins the write of another: what it waits for is a write of its own text. Where
nothing was below the root at the beginning, a delivery finds something at the path of its artifact
only if an artifact was written there for another document, or if the path is that of a directory on
the way to another artifact.

## Main definitions

* `Session.Wrote`, `Session.IsOnTheWay`, `Session.IsOccupied` — why something is at a path
* `Delivery.Stage.IsOwn` — what a delivery has done, on its own
* `Session.InTurn` — what holds of deliveries that take turns

## Main results

* `Delivery.Stage.IsOwn.turn` — what a delivery does stays its own
* `Session.InTurn.isOnTheWay` — what is found where nothing was written
* `Session.InTurn.play` — deliveries go on to take turns
-/

namespace SchemaArtifacts

open Cache Disk

/-- No path comes to have a write without a new one. -/
theorem Cache.Books.free {c c' : Cache} (hb : Books c c') (hlength : c'.jobs.length = c.jobs.length)
    {path : AbsolutePath} (h : c.pendingJob? path = none) : c'.pendingJob? path = none := by
  rw [pendingJob?_eq_none_iff] at h ⊢
  cases hb with
  | kept _ pending => rwa [pending]
  | opened _ _ _ jobs => simp [jobs] at hlength
  | moved _ _ _ _ _ _ pending => rwa [pending]
  | noted _ _ _ _ _ _ pending =>
    rw [pending]
    split
    · exact h
    · intro hmem
      obtain ⟨entry, hentry, rfl⟩ := List.mem_map.1 hmem
      exact h (List.mem_map_of_mem (List.mem_of_mem_filter hentry))

/-- A path without a write has none that is done. -/
theorem Cache.Balanced.isDone_eq_false_of_free {c : Cache} (hb : c.Balanced) {id : Nat} {job : Job}
    (hj : c.jobs[id]? = some job) (h : c.pendingJob? job.path = none) : job.stage.isDone = false := by
  by_contra hdone
  rw [Bool.not_eq_false] at hdone
  apply pendingJob?_eq_none_iff.1 h
  have hmem : (job.path, id) ∈ c.pending :=
    (hb.mem_pending _ _).2 ⟨job, hj, rfl, by simp [Job.stands, hdone]⟩
  exact List.mem_map_of_mem hmem

namespace Delivery

variable {c c' : Cache} {doc : Document} {format : Format} {stage stage' : Stage} {d : Delivery}
  {occupied occupied' : AbsolutePath → Prop}

/-- What a delivery has done on its own. There is no write to the path that it looks at, its own write
has its own text, and it has found something only where a path is occupied. -/
inductive Stage.IsOwn (c : Cache) (doc : Document) (format : Format)
    (occupied : AbsolutePath → Prop) : Stage → Prop where
  | ready : IsOwn c doc format occupied .ready
  | looking (out : String) (path : AbsolutePath) (artifact : doc.HasArtifact c.root format out path)
      (free : c.pendingJob? path = none) : IsOwn c doc format occupied (.looking out path)
  | answered (out : String) (present : Bool) (path : AbsolutePath)
      (artifact : doc.HasArtifact c.root format out path) (free : c.pendingJob? path = none)
      (found : present → occupied path) : IsOwn c doc format occupied (.answered out present)
  | waiting (out : String) (id : Nat) (job : Job)
      (artifact : doc.HasArtifact c.root format out job.path)
      (text : doc.textBelow c.root format = .ok job.content) (there : c.jobs[id]? = some job) :
      IsOwn c doc format occupied (.waiting out job.content id)
  | written (out : String) (id : Nat) (job : Job)
      (artifact : doc.HasArtifact c.root format out job.path)
      (text : doc.textBelow c.root format = .ok job.content) (there : c.jobs[id]? = some job)
      (done : job.stage.isDone) : IsOwn c doc format occupied (.ended (.ok .written))
  | cached (out : String) (path : AbsolutePath) (artifact : doc.HasArtifact c.root format out path)
      (found : occupied path) : IsOwn c doc format occupied (.ended (.ok .cached))
  | ended (result : Except Failure ExportStatus) (notWritten : result ≠ .ok .written)
      (notCached : result ≠ .ok .cached) : IsOwn c doc format occupied (.ended result)

/-- What a delivery has done stays its own, if no write begins while it is under way. -/
theorem Stage.IsOwn.later (h : d.stage.IsOwn c doc format occupied) (hop : c.Operation c')
    (hoccupied : ∀ path, occupied path → occupied' path)
    (hlength : d.isUnderWay → c'.jobs.length = c.jobs.length) :
    d.stage.IsOwn c' doc format occupied' := by
  have hroot := hop.sameWorld.root
  have hfree : d.isUnderWay → ∀ path, c.pendingJob? path = none → c'.pendingJob? path = none :=
    fun hunder path => hop.books.free (hlength hunder)
  unfold isUnderWay at hfree
  generalize d.stage = stage at h hfree
  cases h with
  | ready => exact .ready
  | looking out path artifact free => exact .looking out path (by rwa [hroot]) (hfree rfl path free)
  | answered out present path artifact free found =>
    exact .answered out present path (by rwa [hroot]) (hfree rfl path free) fun hp =>
      hoccupied path (found hp)
  | waiting out id job artifact text there =>
    obtain ⟨job', there', hlater⟩ := hop.books.exists_later there
    rw [← hlater.content]
    exact .waiting out id job' (by rwa [hroot, hlater.path]) (by rwa [hroot, hlater.content]) there'
  | written out id job artifact text there done =>
    obtain ⟨job', there', hlater⟩ := hop.books.exists_later there
    exact .written out id job' (by rwa [hroot, hlater.path]) (by rwa [hroot, hlater.content]) there'
      (hlater.isDone done)
  | cached out path artifact found =>
    exact .cached out path (by rwa [hroot]) (hoccupied path found)
  | ended result notWritten notCached => exact .ended result notWritten notCached

/-- Who has an answer has found no write to the path of the artifact. -/
theorem Stage.IsOwn.free_of_answered {out : String} {present : Bool} {path : AbsolutePath}
    (h : (Stage.answered out present).IsOwn c doc format occupied)
    (hartifact : doc.HasArtifact c.root format out path) : c.pendingJob? path = none := by
  cases h with
  | answered _ _ path' artifact free =>
    obtain ⟨-, rfl⟩ := hartifact.unique artifact
    exact free

/-- Only an artifact can be found. -/
theorem Stage.exists_artifact_of_cached
    (h : (Stage.next doc format c .ready).2 = .ended (.ok .cached)) :
    ∃ out path, doc.HasArtifact c.root format out path := by
  cases hstart : doc.startBelow c.root format with
  | error e => simp [Stage.next, hstart] at h
  | ok out =>
    simp only [Stage.next, hstart, look] at h
    split at h
    · exact ⟨out, _, hstart, ‹_›⟩
    · split at h <;> cases h

/-- A delivery that has ended stays as it is. -/
theorem Stage.Turn.of_ended {result : Except Failure ExportStatus}
    (h : Turn c doc format stage c' stage') (hended : stage = .ended result) :
    c' = c ∧ stage' = .ended result := by
  cases h with
  | rests result' => exact ⟨rfl, hended⟩
  | _ => cases hended

/-- A delivery that takes a step has begun. -/
theorem Stage.Turn.ne_ready (h : Turn c doc format stage c' stage') : stage' ≠ .ready := by
  cases h <;> simp [Stage.waiting, Stage.served]

/-- A step of a delivery leaves the cache alone or begins a write, which the delivery waits for. -/
theorem Stage.Turn.cache_cases (h : Turn c doc format stage c' stage') :
    c' = c ∨ ∃ out content path, doc.HasArtifact c.root format out path ∧
      c' = c.open_ path content ∧ stage = .answered out false ∧
      stage' = .waiting out content c.jobs.length := by
  cases h with
  | begins out content path artifact => exact Or.inr ⟨out, content, path, artifact, rfl, rfl, rfl⟩
  | _ => exact Or.inl rfl

/-- What a delivery does stays its own, if it begins when all writes have ended and been noted, and if
what is there without a write occupies a path. -/
theorem Stage.IsOwn.turn (h : stage.IsOwn c doc format occupied)
    (hturn : Turn c doc format stage c' stage') (hop : c.Operation c')
    (hoccupied : ∀ path, occupied path → occupied' path)
    (hknown : stage = .ready → ∀ path, c.isWritten path → occupied path)
    (hfree : stage = .ready → ∀ path, c.isWritten path = false → c.pendingJob? path = none)
    (hpresent : ∀ out path, doc.HasArtifact c.root format out path → c.pendingJob? path = none →
      c.disk.exists_ path → occupied path) : stage'.IsOwn c' doc format occupied' := by
  have hroot := hop.sameWorld.root
  cases hturn with
  | refused result other none always =>
    refine .ended result other ?_
    rintro rfl
    obtain ⟨out, path, artifact⟩ :=
      exists_artifact_of_cached (congrArg Prod.snd (always c rfl))
    exact none out path artifact
  | known out path artifact written =>
    exact .cached out path artifact (hoccupied path (hknown rfl path written))
  | looks out path artifact unknown => exact .looking out path artifact (hfree rfl path unknown)
  | answers out path artifact =>
    cases h with
    | looking _ _ _ free =>
      exact .answered out _ path artifact free fun hthere =>
        hoccupied path (hpresent out path artifact free hthere)
  | present out =>
    cases h with
    | answered _ _ path artifact _ found =>
      exact .cached out path artifact (hoccupied path (found rfl))
  | textless out e text => exact .ended _ (by simp) (by simp)
  | begins out content path artifact text free =>
    exact .waiting out _ { path, content } artifact text (getElem?_jobs_open_.2 (Or.inr ⟨rfl, rfl⟩))
  | joins out content id job artifact text pending =>
    rw [h.free_of_answered artifact] at pending
    cases pending
  | late out content id job artifact text pending =>
    rw [h.free_of_answered artifact] at pending
    cases pending
  -- An equation for the point where it waits keeps the case split from losing track of the write.
  | waits out content id unsettled =>
    generalize hstage : Stage.waiting out content id = stage at h ⊢
    cases h with
    | waiting out' id' job artifact text there => exact .waiting out' id' job artifact text there
    | _ => cases hstage
  | served out content id job there settled ended =>
    generalize hstage : Stage.waiting out content id = stage at h
    cases h with
    | waiting out' id' job' artifact text there' =>
      obtain ⟨-, rfl⟩ := waiting_inj hstage
      cases there.symm.trans there'
      unfold Stage.served Cache.outcome
      rw [there]
      dsimp only
      cases hs : job.stage with
      | ended outcome =>
        cases outcome with
        | ok _ => exact .written out' id job artifact text there (by rw [hs]; rfl)
        | error e => refine .ended _ ?_ ?_ <;> simp [Stage.outcome?, Except.map]
      | _ =>
        rw [hs] at ended
        cases ended
    | _ => cases hstage
  | rests result =>
    generalize hstage : Stage.ended result = stage at h ⊢
    cases h with
    | written out id job artifact text there done => exact .written out id job artifact text there done
    | cached out path artifact found => exact .cached out path artifact (hoccupied path found)
    | ended result' notWritten notCached => exact .ended result' notWritten notCached
    | _ => cases hstage

end Delivery

namespace Session

section Occupied

variable {root path : AbsolutePath} {orders : List (Document × Format)}
  {deliveries : List Delivery} {c c' : Cache} {i : Nat} {d d' : Delivery}
  {order : Document × Format}

/-- An export of a document with its artifact at a path has ended with the artifact written. -/
def Wrote (root : AbsolutePath) (orders : List (Document × Format)) (deliveries : List Delivery)
    (path : AbsolutePath) : Prop :=
  ∃ (i : Nat) (d : Delivery) (order : Document × Format) (out : String), deliveries[i]? = some d ∧
    orders[i]? = some order ∧ d.stage = .ended (.ok .written) ∧
    order.1.HasArtifact root order.2 out path

/-- The path is that of a directory on the way to the artifact of a document. -/
def IsOnTheWay (root : AbsolutePath) (orders : List (Document × Format)) (path : AbsolutePath) :
    Prop :=
  ∃ order ∈ orders, ∃ out path', order.1.HasArtifact root order.2 out path' ∧
    path.IsAbove path'.parent

/-- Something is at a path: an artifact that was written, or a directory on the way to one. -/
def IsOccupied (root : AbsolutePath) (orders : List (Document × Format))
    (deliveries : List Delivery) (path : AbsolutePath) : Prop :=
  Wrote root orders deliveries path ∨ IsOnTheWay root orders path

theorem Wrote.step (h : Wrote root orders deliveries path) (hd : deliveries[i]? = some d)
    (hturn : Delivery.Stage.Turn c order.1 order.2 d.stage c' d'.stage) :
    Wrote root orders (deliveries.set i d') path := by
  obtain ⟨j, e, order', out, he, horder, hstage, artifact⟩ := h
  obtain ⟨e', he', ⟨rfl, rfl⟩ | ⟨-, rfl⟩⟩ := exists_getElem?_set he i d'
  · cases hd.symm.trans he
    exact ⟨i, _, order', out, he', horder, (hturn.of_ended hstage).2, artifact⟩
  · exact ⟨j, _, order', out, he', horder, hstage, artifact⟩

theorem IsOccupied.step (h : IsOccupied root orders deliveries path)
    (hd : deliveries[i]? = some d)
    (hturn : Delivery.Stage.Turn c order.1 order.2 d.stage c' d'.stage) :
    IsOccupied root orders (deliveries.set i d') path :=
  h.imp_left fun hwrote => hwrote.step hd hturn

end Occupied

/-- At most one of the deliveries is under way. -/
def IsSingle (deliveries : List Delivery) : Prop :=
  ∀ (i j : Nat) (d e : Delivery), deliveries[i]? = some d → deliveries[j]? = some e →
    d.isUnderWay → e.isUnderWay → j = i

/-- Each write is waited for, or its end was noted, and then its artifact is known as written. -/
def IsFollowed (orders : List (Document × Format)) (c : Cache) (deliveries : List Delivery) : Prop :=
  ∀ (id : Nat) (job : Job), c.jobs[id]? = some job →
    (∃ (i : Nat) (d : Delivery) (out content : String), deliveries[i]? = some d ∧
      d.stage = .waiting out content id) ∨
    job.settled ∧ (job.stage.isDone → Wrote c.root orders deliveries job.path)

/-- What holds of deliveries that take turns, below a root at a place. -/
structure InTurn (orders : List (Document × Format)) (site : List String) (c : Cache)
    (deliveries : List Delivery) : Prop where
  single : IsSingle deliveries
  followed : IsFollowed orders c deliveries
  /-- A write is one of the artifact of a document. -/
  ordered : ∀ job ∈ c.jobs, ∃ order ∈ orders, ∃ out,
    order.1.HasArtifact c.root order.2 out job.path
  explained : c.IsExplained site
  own : ∀ (i : Nat) (d : Delivery) (order : Document × Format), deliveries[i]? = some d →
    orders[i]? = some order →
    d.stage.IsOwn c order.1 order.2 (IsOccupied c.root orders deliveries)

variable {s : Session} {orders : List (Document × Format)} {site : List String} {c c' : Cache}
  {deliveries : List Delivery} {i : Nat} {d d' : Delivery} {order : Document × Format}
  {path : AbsolutePath}

theorem isUnderWay_of_waiting {out content : String} {id : Nat}
    (h : d.stage = .waiting out content id) : d.isUnderWay := by
  simp [Delivery.isUnderWay, h, Delivery.Stage.waiting]

/-! ## While nothing is under way -/

/-- The end of each write was noted. -/
theorem IsFollowed.settled_of_idle (h : IsFollowed orders c deliveries)
    (hidle : ∀ e ∈ deliveries, e.isUnderWay = false) {id : Nat} {job : Job}
    (hj : c.jobs[id]? = some job) :
    job.settled ∧ (job.stage.isDone → Wrote c.root orders deliveries job.path) := by
  refine (h id job hj).resolve_left ?_
  rintro ⟨i, e, out, content, he, hstage⟩
  have hunder := isUnderWay_of_waiting hstage
  rw [hidle e (List.mem_of_getElem? he)] at hunder
  cases hunder

/-- An artifact that is known as written was written for a document. -/
theorem IsFollowed.wrote_of_idle (h : IsFollowed orders c deliveries) (hb : c.Balanced)
    (hidle : ∀ e ∈ deliveries, e.isUnderWay = false) (hknown : c.isWritten path) :
    Wrote c.root orders deliveries path := by
  obtain ⟨id, job, hj, rfl, hdone, -⟩ := (hb.mem_written path).1 (by simpa [isWritten] using hknown)
  exact (h.settled_of_idle hidle hj).2 hdone

/-- A path that is not known as written has no write. -/
theorem IsFollowed.free_of_idle (h : IsFollowed orders c deliveries) (hb : c.Balanced)
    (hidle : ∀ e ∈ deliveries, e.isUnderWay = false) (hunknown : c.isWritten path = false) :
    c.pendingJob? path = none := by
  rw [pendingJob?_eq_none_iff]
  intro hmem
  obtain ⟨⟨p, id⟩, hentry, rfl⟩ := List.mem_map.1 hmem
  obtain ⟨job, hj, rfl, hstands⟩ := (hb.mem_pending p id).1 hentry
  have hsettled := (h.settled_of_idle hidle hj).1
  have hdone : job.stage.isDone := by simpa [Job.stands, hsettled] using hstands
  have hknown := (hb.mem_written job.path).2 ⟨id, job, hj, rfl, hdone, hsettled⟩
  simp [isWritten, hknown] at hunknown

/-! ## A step of a delivery -/

/-- A delivery that has come under way leaves the others where they are, if it begins when no other is
under way. -/
theorem IsSingle.isUnderWay_eq_false (h : IsSingle deliveries) (hd : deliveries[i]? = some d)
    (hturn : Delivery.Stage.Turn c order.1 order.2 d.stage c' d'.stage)
    (hfirst : d.stage = .ready → ∀ e ∈ deliveries, e.isUnderWay = false) (hunder' : d'.isUnderWay)
    {j : Nat} {e : Delivery} (hij : i ≠ j) (he : deliveries[j]? = some e) :
    e.isUnderWay = false := by
  by_cases hunder : d.isUnderWay
  · by_contra hother
    exact hij (h i j d e hd he hunder (by simpa using hother)).symm
  · have hready : d.stage = .ready := by
      unfold Delivery.isUnderWay at hunder hunder'
      generalize d.stage = stage at hunder hturn ⊢
      cases stage with
      | ready => rfl
      | ended result =>
        rw [(hturn.of_ended rfl).2] at hunder'
        cases hunder'
      | _ => simp at hunder
    exact hfirst hready e (List.mem_of_getElem? he)

theorem IsSingle.step (h : IsSingle deliveries) (hd : deliveries[i]? = some d)
    (hturn : Delivery.Stage.Turn c order.1 order.2 d.stage c' d'.stage)
    (hfirst : d.stage = .ready → ∀ e ∈ deliveries, e.isUnderWay = false) :
    IsSingle (deliveries.set i d') := by
  have hi : i < deliveries.length := (List.getElem?_eq_some_iff.1 hd).1
  have hothers : ∀ (j : Nat) (e : Delivery), i ≠ j → deliveries[j]? = some e → d'.isUnderWay →
      e.isUnderWay → False := by
    intro j e hij he hunder' hunder
    rw [h.isUnderWay_eq_false hd hturn hfirst hunder' hij he] at hunder
    cases hunder
  intro j k e f he hf hunder hunder'
  by_cases hij : i = j
  · subst hij
    rw [List.getElem?_set_self hi] at he
    cases he
    by_contra hki
    rw [List.getElem?_set_ne (Ne.symm hki)] at hf
    exact hothers k f (Ne.symm hki) hf hunder hunder'
  · rw [List.getElem?_set_ne hij] at he
    by_cases hik : i = k
    · subst hik
      rw [List.getElem?_set_self hi] at hf
      cases hf
      exact absurd hunder (hothers j e hij he hunder')
    · rw [List.getElem?_set_ne hik] at hf
      exact h j k e f he hf hunder hunder'

/-- A delivery that has seen the end of its write has ended with its artifact written, if the write is
done. -/
theorem wrote_of_served {occupied : AbsolutePath → Prop} {out content : String} {id : Nat}
    {job : Job} (h : d.stage.IsOwn c order.1 order.2 occupied)
    (hstage : d.stage = .waiting out content id) (hj : c.jobs[id]? = some job)
    (hdone : job.stage.isDone) (hi : i < deliveries.length) (ho : orders[i]? = some order)
    (hlast : d'.stage = .served c id) : Wrote c.root orders (deliveries.set i d') job.path := by
  have hwritten : d'.stage = .ended (.ok .written) := by
    rw [hlast, Delivery.Stage.served, Cache.outcome, hj]
    dsimp only
    rw [isDone_iff_outcome?.1 hdone]
    rfl
  rw [hstage] at h
  generalize hwaits : Delivery.Stage.waiting out content id = stage at h
  cases h with
  | waiting out' id' job' artifact text there =>
    obtain ⟨-, rfl⟩ := Delivery.Stage.waiting_inj hwaits
    cases hj.symm.trans there
    exact ⟨i, d', order, out', by simp [hi], ho, hwritten, artifact⟩
  | _ => cases hwaits

/-- Whoever waits for a write goes on to wait for it, or has seen its end. -/
theorem IsFollowed.step {occupied : AbsolutePath → Prop} (h : IsFollowed orders c deliveries)
    (hown : d.stage.IsOwn c order.1 order.2 occupied) (hd : deliveries[i]? = some d)
    (ho : orders[i]? = some order) (hop : c.Operation c')
    (hturn : Delivery.Stage.Turn c order.1 order.2 d.stage c' d'.stage) :
    IsFollowed orders c' (deliveries.set i d') := by
  have hi : i < deliveries.length := (List.getElem?_eq_some_iff.1 hd).1
  have hkept : ∀ (id : Nat) (job : Job), c.jobs[id]? = some job →
      (∃ (j : Nat) (e : Delivery) (out content : String), (deliveries.set i d')[j]? = some e ∧
        e.stage = .waiting out content id) ∨
      job.settled ∧ (job.stage.isDone → Wrote c'.root orders (deliveries.set i d') job.path) := by
    intro id job hj
    rw [hop.sameWorld.root]
    rcases h id job hj with ⟨j, e, out, content, he, hstage⟩ | ⟨hsettled, hwrote⟩
    · obtain ⟨e', he', hwaits⟩ | ⟨-, hwaits, hlast, job', there, hsettled, -⟩ :=
        hturn.exists_waiting hd he hstage
      · exact Or.inl ⟨j, e', out, content, he', hwaits⟩
      · cases hj.symm.trans there
        exact Or.inr ⟨by simpa [isSettled, hj] using hsettled,
          fun hdone => wrote_of_served hown hwaits hj hdone hi ho hlast⟩
    · exact Or.inr ⟨hsettled, fun hdone => (hwrote hdone).step hd hturn⟩
  rcases hturn.cache_cases with rfl | ⟨out, content, path, -, rfl, -, hlast⟩
  · exact hkept
  · intro id job hj
    rcases getElem?_jobs_open_.1 hj with hj | ⟨rfl, -⟩
    · exact hkept id job hj
    · exact Or.inl ⟨i, d', out, content, by simp [hi], hlast⟩

/-- What is there at the path of an artifact without a write lies on the way to another artifact. -/
theorem InTurn.isOnTheWay (h : InTurn orders site c deliveries) (hs : c.Steady)
    (hsite : ∀ place, RootAt c.disk c.root place → place = site)
    (hformat : order.2 = .typeScript ∨ order.2 = .javaScript) {out : String}
    (hartifact : order.1.HasArtifact c.root order.2 out path) (hfree : c.pendingJob? path = none)
    (hthere : c.disk.exists_ path) : IsOnTheWay c.root orders path := by
  obtain ⟨dir, name, hpath⟩ := hartifact.exists_isLasting hformat
  obtain ⟨place, e, hlocate, hentry⟩ := exists_iff.1 hthere
  rw [hpath.path] at hlocate
  obtain ⟨top, hr, rfl, -⟩ := hs.free.exists_place (by simp) hpath.plain hlocate
  rw [hsite top hr] at hentry
  obtain ⟨id, job, dir', name', hj, hpath', hcases⟩ :=
    h.explained (dir ++ [name]) (by simp) (by simp [hentry])
  -- Of the three things that writes bring, an artifact's path can only be the first here.
  rcases hcases with habove | htemporary | ⟨hsame, hdone⟩
  · obtain ⟨order', horder', out', hartifact'⟩ := h.ordered job (List.mem_of_getElem? hj)
    refine ⟨order', horder', out', job.path, hartifact', ?_⟩
    rw [hpath'.parent, hpath.path]
    exact ⟨rfl, (List.prefix_append_right_inj _).2 habove⟩
  · exact absurd htemporary.symm (hpath.temporary_ne [] dir' name')
  · have hjob : job.path = path := by rw [hpath'.path, hpath.path, hsame]
    rw [hs.balanced.isDone_eq_false_of_free hj (by rwa [hjob])] at hdone
    cases hdone

/-- A step of a delivery leaves the deliveries taking turns, if it begins when no other is under
way. -/
theorem InTurn.step (h : InTurn orders site c deliveries) (hs : c.Steady)
    (hsite : ∀ place, RootAt c.disk c.root place → place = site)
    (hformat : order.2 = .typeScript ∨ order.2 = .javaScript) (hd : deliveries[i]? = some d)
    (ho : orders[i]? = some order) (hop : c.Operation c')
    (hturn : Delivery.Stage.Turn c order.1 order.2 d.stage c' d'.stage)
    (hfirst : d.stage = .ready → ∀ e ∈ deliveries, e.isUnderWay = false) :
    InTurn orders site c' (deliveries.set i d') := by
  have hi : i < deliveries.length := (List.getElem?_eq_some_iff.1 hd).1
  have hown := h.own i d order hd ho
  refine ⟨h.single.step hd hturn hfirst, h.followed.step hown hd ho hop hturn, ?_, ?_, ?_⟩
  · rw [hop.sameWorld.root]
    rcases hturn.cache_cases with rfl | ⟨out, content, path, artifact, rfl, -⟩
    · exact h.ordered
    · intro job hjob
      rcases List.mem_append.1 hjob with hjob | hjob
      · exact h.ordered job hjob
      · rw [List.mem_singleton.1 hjob]
        exact ⟨order, List.mem_of_getElem? ho, out, artifact⟩
  · apply h.explained.of_disk hop
    rcases hturn.cache_cases with rfl | ⟨out, content, path, -, rfl, -⟩ <;> rfl
  · rw [hop.sameWorld.root]
    have hoccupied : ∀ path, IsOccupied c.root orders deliveries path →
        IsOccupied c.root orders (deliveries.set i d') path :=
      fun path hpath => hpath.step hd hturn
    refine forall_getElem?_set (fun order' ho' => ?_) fun j e order' hij he ho' => ?_
    · cases ho.symm.trans ho'
      apply hown.turn hturn hop hoccupied
      · intro hready path hknown
        exact Or.inl (h.followed.wrote_of_idle hs.balanced (hfirst hready) hknown)
      · intro hready path hunknown
        exact h.followed.free_of_idle hs.balanced (hfirst hready) hunknown
      · intro out path artifact free hthere
        exact Or.inr (h.isOnTheWay hs hsite hformat artifact free hthere)
    · refine (h.own j e order' he ho').later hop hoccupied fun hunder => ?_
      rcases hturn.cache_cases with rfl | ⟨out, content, path, -, -, hanswered, -⟩
      · rfl
      · have hunder' : d.isUnderWay := by simp [Delivery.isUnderWay, hanswered]
        exact absurd (h.single i j d e hd he hunder' hunder).symm hij

/-! ## A step of a write, and of the cache -/

/-- An operation that marks one write leaves the deliveries taking turns. -/
theorem InTurn.of_modify (h : InTurn orders site c deliveries)
    (hop : c.Operation c') {id : Nat} {job : Job} {mark : Job → Job} (hj : c.jobs[id]? = some job)
    (hjobs : c'.jobs = c.jobs.modify id mark) (hpath : (mark job).path = job.path)
    (hunsettled : job.settled = false) (hexplained : c'.IsExplained site) :
    InTurn orders site c' deliveries := by
  have hroot := hop.sameWorld.root
  refine ⟨h.single, ?_, ?_, hexplained, ?_⟩
  · intro other job' hj'
    rw [hroot]
    rcases (getElem?_modify_jobs hj hjobs).1 hj' with ⟨-, hj'⟩ | ⟨rfl, rfl⟩
    · exact h.followed other job' hj'
    · refine Or.inl ((h.followed other job hj).resolve_right ?_)
      rintro ⟨hsettled, -⟩
      rw [hunsettled] at hsettled
      cases hsettled
  · rw [hroot]
    exact forall_path_modify (P := fun path => ∃ order ∈ orders, ∃ out,
      order.1.HasArtifact c.root order.2 out path) hj hpath hjobs h.ordered
  · intro i d order hd ho
    rw [hroot]
    have hlength : c'.jobs.length = c.jobs.length := by rw [hjobs, List.length_modify]
    exact (h.own i d order hd ho).later hop (fun _ hpath => hpath) fun _ => hlength

/-! ## Moves -/

/-- A delivery begins only when no other is under way, where one at most may be. -/
theorem isUnderWay_eq_false_of_starts {m : Move} (hm : m.isOrderly) (hlimit : s.limit = 1)
    (hd : s.deliveries[i]? = some d) (hready : d.stage = .ready)
    (hd' : (s.play m).deliveries[i]? = some d') (hleft : d'.stage ≠ .ready) :
    ∀ e ∈ s.deliveries, e.isUnderWay = false := by
  have hstays : s.deliveries[i]? ≠ some d' := by
    intro hsame
    cases hd.symm.trans hsame
    exact hleft hready
  have hplays := s.plays_play m
  generalize s.play m = t at hplays hd'
  cases hplays with
  | delivers m j e there turn =>
    rcases turn with ⟨-, hroom⟩ | ⟨-, hbegun⟩
    · rw [hlimit, Nat.lt_one_iff, underWay, List.countP_eq_zero] at hroom
      exact fun e he => by simpa using hroom e he
    · -- The delivery that takes a step has begun before, so it is another one.
      have hij : j ≠ i := by
        rintro rfl
        cases hd.symm.trans there
        simp [Delivery.isReady, hready] at hbegun
      rw [stepDelivery_of_getElem? there, putDelivery, List.getElem?_set_ne hij] at hd'
      exact absurd hd' hstays
  | still | writes | settles => exact absurd hd' hstays
  | calls | givesUp | abandons | callsOff => cases hm

/-- The deliveries of a session go on to take turns. -/
theorem InTurn.play {d₀ : Disk} {base : AbsolutePath} {top names : List String}
    (h : InTurn orders (top ++ names) s.cache s.deliveries) (hs : s.IsSteady orders)
    (hvacant : IsVacant d₀ base top names) (hk : Keeps d₀ s.cache.disk)
    (hroot : s.cache.root = base.join names) (hlimit : s.limit = 1) {m : Move} (hm : m.isOrderly) :
    InTurn orders (top ++ names) (s.play m).cache (s.play m).deliveries := by
  have hop := operation_play s m
  have hturn := turn_play hs.runs hm
  have hfirst : ∀ (i : Nat) (d d' : Delivery), s.deliveries[i]? = some d → d.stage = .ready →
      (s.play m).deliveries[i]? = some d' → d'.stage ≠ .ready →
      ∀ e ∈ s.deliveries, e.isUnderWay = false :=
    fun _ _ _ hd hready => isUnderWay_eq_false_of_starts hm hlimit hd hready
  generalize (s.play m).cache = c' at hop hturn ⊢
  generalize (s.play m).deliveries = deliveries' at hturn hfirst ⊢
  cases hturn with
  | still => exact h
  | step i d d' order c' there ordered turn =>
    have hsite : ∀ place, RootAt s.cache.disk s.cache.root place → place = top ++ names := by
      intro place hr
      rw [hroot] at hr
      exact hvacant.eq_of_rootAt hk hr
    have hi : i < s.deliveries.length := (List.getElem?_eq_some_iff.1 there).1
    have hformat := hs.known order (List.mem_of_getElem? ordered)
    refine h.step hs.steady hsite hformat there ordered hop turn fun hready => ?_
    exact hfirst i d d' there hready (List.getElem?_set_self hi) turn.ne_ready
  | write id job there inFlight =>
    obtain ⟨stage, d', hturns, -⟩ := exists_stroke_advance there inFlight
    obtain ⟨dir, name, hpath⟩ := hs.steady.lasting id job there
    have hunsettled : job.settled = false := by
      by_contra hsettled
      rw [hs.runs.balanced.ended id job there (by simpa using hsettled)] at inFlight
      cases inFlight
    exact h.of_modify hop there hturns.jobs rfl hunsettled
      (h.explained.advance hvacant hk hroot there inFlight hpath
        fun n => hs.steady.placing id job n there)
  | settle id job there ended fresh =>
    exact h.of_modify hop there (jobs_settle there ended fresh) rfl fresh
      (h.explained.of_disk hop (disk_settle s.cache id))

end Session
end SchemaArtifacts
