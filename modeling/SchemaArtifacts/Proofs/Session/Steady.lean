import SchemaArtifacts.Proofs.Cache.Content
import SchemaArtifacts.Proofs.Session.Turn

/-!
# What the writes of a session leave on the disk

No text of an artifact is empty. A write that is about to place its artifact has filled its
temporary file, and a write that is done has put its text at its path; whatever else the session
does, these files stay as they are.

## Main definitions

* `Cache.Steady` — the files of the writes are there
* `Session.Endures` — a file at a path, with nothing under way that would write there again

## Main results

* `Document.ne_empty_of_textBelow` — no text is empty
* `Session.Turn.steady` — the files of the writes stay there
* `Session.Endures.turn` — a file that endures goes on to endure
-/

namespace SchemaArtifacts

open Cache Disk

theorem append_line_feed_ne_empty (s : String) : s ++ "\n" ≠ "" := by
  intro h
  have hlength := congrArg (fun s : String => s.toList.length) h
  simp at hlength

/-- No text of an artifact is empty. -/
theorem Document.ne_empty_of_textBelow {root : AbsolutePath} {format : Format} {doc : Document}
    {content : String} (hformat : format = .typeScript ∨ format = .javaScript)
    (h : doc.textBelow root format = .ok content) : content ≠ "" := by
  obtain ⟨text, lines, hcompose, -, rfl⟩ := textBelow_eq_ok_iff.1 h
  rcases hformat with rfl | rfl
  · cases hcompose
    exact append_line_feed_ne_empty _
  · obtain ⟨entries, -, htext⟩ := Result.bind_eq_ok.1 hcompose
    cases htext
    exact append_line_feed_ne_empty _

namespace Cache

/-- The files of the writes are there. -/
structure Steady (c : Cache) : Prop where
  balanced : c.Balanced
  free : IsFreeBelow c.disk c.root
  lasting : ∀ (id : Nat) (job : Job), c.jobs[id]? = some job →
    ∃ dir name, c.root.IsLasting job.path dir name
  full : ∀ (id : Nat) (job : Job), c.jobs[id]? = some job → job.content ≠ ""
  placing : ∀ (id : Nat) (job : Job) (n : Nat), c.jobs[id]? = some job → job.stage = .placing n →
    c.disk.content? (temporary job.path) = some job.content
  done : ∀ (id : Nat) (job : Job), c.jobs[id]? = some job → job.stage.isDone →
    c.disk.content? job.path = some job.content

variable {c c' : Cache} {id : Nat} {job : Job}

/-- A cache in which nothing has happened has no files to be there. -/
theorem IsFresh.steady (h : c.IsFresh) (hfree : IsFreeBelow c.disk c.root) : c.Steady := by
  refine ⟨h.balanced, hfree, ?_, ?_, ?_, ?_⟩ <;> simp [h.jobs]

/-- A new write has no files yet. -/
theorem Steady.open_ (h : c.Steady) {path : AbsolutePath} {content : String}
    (hfree : c.pendingJob? path = none) {dir : List String} {name : String}
    (hpath : c.root.IsLasting path dir name) (hcontent : content ≠ "") :
    (c.open_ path content).Steady := by
  refine ⟨h.balanced.open_ content hfree, h.free, ?lasting, ?full, ?placing, ?done⟩
  case lasting =>
    intro id job hj
    rcases getElem?_jobs_open_.1 hj with hj | ⟨-, rfl⟩
    · exact h.lasting id job hj
    · exact ⟨dir, name, hpath⟩
  case full =>
    intro id job hj
    rcases getElem?_jobs_open_.1 hj with hj | ⟨-, rfl⟩
    · exact h.full id job hj
    · exact hcontent
  case placing =>
    intro id job n hj hs
    rcases getElem?_jobs_open_.1 hj with hj | ⟨-, rfl⟩
    · exact h.placing id job n hj hs
    · cases hs
  case done =>
    intro id job hj hd
    rcases getElem?_jobs_open_.1 hj with hj | ⟨-, rfl⟩
    · exact h.done id job hj hd
    · cases hd

/-- A write that another step leaves alone has another path, if it stands. -/
theorem Balanced.path_ne_of_ne (h : c.Balanced) {other : Nat} {job' : Job}
    (hj : c.jobs[id]? = some job) (hj' : c.jobs[other]? = some job') (hne : other ≠ id)
    (hs : job.stands) (hs' : job'.stands) : job'.path ≠ job.path :=
  fun hp => hne (h.eq_of_stands hj hj' hp hs hs')

/-- A step of a write does to the files what its job says, and leaves the other writes theirs. -/
theorem Steady.advance (h : c.Steady) (hj : c.jobs[id]? = some job) (hf : job.stage.inFlight) :
    (c.advance id).Steady := by
  obtain ⟨stage, d', hturns, hstroke⟩ := exists_stroke_advance hj hf
  obtain ⟨dir, name, hpath⟩ := h.lasting id job hj
  have hfull : ∀ n, job.stage = .placing n →
      c.disk.content? (temporary job.path) = some job.content := fun n => h.placing id job n hj
  have hroot := (sameWorld_advance c id).root
  have hkeeps := hstroke.keeps h.free hpath hfull
  have hstands := h.balanced.stands_of_inFlight hj hf
  have hdisk : (c.advance id).disk = d' := hturns.disk
  have hjobs : ∀ {other : Nat} {job' : Job}, (c.advance id).jobs[other]? = some job' ↔
      other ≠ id ∧ c.jobs[other]? = some job' ∨ other = id ∧ job' = { job with stage } :=
    getElem?_modify_jobs hj hturns.jobs
  refine ⟨(books_advance c id).balanced h.balanced, ?free, ?lasting, ?full, ?placing, ?done⟩
  case free =>
    rw [hroot, hdisk]
    exact h.free.keeps hkeeps
  case lasting =>
    intro other job' hj'
    rw [hroot]
    rcases hjobs.1 hj' with ⟨-, hj'⟩ | ⟨-, rfl⟩
    · exact h.lasting other job' hj'
    · exact ⟨dir, name, hpath⟩
  case full =>
    intro other job' hj'
    rcases hjobs.1 hj' with ⟨-, hj'⟩ | ⟨-, rfl⟩
    · exact h.full other job' hj'
    · exact h.full id job hj
  case placing =>
    intro other job' n hj' hs
    rw [hdisk]
    rcases hjobs.1 hj' with ⟨hne, hj'⟩ | ⟨-, rfl⟩
    · -- Another write that stands has another path, so its file is none of those that the step
      -- comes to.
      obtain ⟨dir', name', hpath'⟩ := h.lasting other job' hj'
      have hstands' := h.balanced.stands_of_inFlight hj' (by rw [hs]; rfl)
      exact hstroke.content?_temporary_of_ne h.free hpath hfull hpath'
        (h.balanced.path_ne_of_ne hj hj' hne hstands hstands') (h.placing other job' n hj' hs)
    · exact hstroke.content?_temporary h.free hpath.path hpath.plain
        (fun n hn => ⟨job.content, hfull n hn⟩) n hs
  case done =>
    intro other job' hj' hd
    rw [hdisk]
    rcases hjobs.1 hj' with ⟨hne, hj'⟩ | ⟨-, rfl⟩
    · obtain ⟨dir', name', hpath'⟩ := h.lasting other job' hj'
      have hstands' : job'.stands := by simp [Job.stands, hd]
      exact hstroke.content?_of_ne h.free hpath hfull hpath'
        (h.balanced.path_ne_of_ne hj hj' hne hstands hstands') (h.done other job' hj' hd)
    · exact hstroke.content?_of_done h.free hpath.path hpath.plain hfull hd

/-- Taking note changes no file. -/
theorem Steady.settle (h : c.Steady) (hj : c.jobs[id]? = some job)
    (he : job.stage.inFlight = false) (hs : job.settled = false) : (c.settle id).Steady := by
  have hroot := (sameWorld_settle c id).root
  have hdisk := disk_settle c id
  have hjob : ∀ (other : Nat) (job' : Job), (c.settle id).jobs[other]? = some job' →
      ∃ job'' : Job, c.jobs[other]? = some job'' ∧ job''.path = job'.path ∧
        job''.content = job'.content ∧ job''.stage = job'.stage := by
    intro other job' hj'
    rcases (getElem?_modify_jobs hj (jobs_settle hj he hs)).1 hj' with ⟨-, hj'⟩ | ⟨rfl, rfl⟩
    · exact ⟨job', hj', rfl, rfl, rfl⟩
    · exact ⟨job, hj, rfl, rfl, rfl⟩
  refine ⟨(books_settle c id).balanced h.balanced, by rw [hroot, hdisk]; exact h.free, ?lasting,
    ?full, ?placing, ?done⟩
  case lasting =>
    intro other job' hj'
    obtain ⟨job'', hj'', hpath, -, -⟩ := hjob other job' hj'
    rw [hroot, ← hpath]
    exact h.lasting other job'' hj''
  case full =>
    intro other job' hj'
    obtain ⟨job'', hj'', -, hcontent, -⟩ := hjob other job' hj'
    rw [← hcontent]
    exact h.full other job'' hj''
  case placing =>
    intro other job' n hj' hp
    obtain ⟨job'', hj'', hpath, hcontent, hstage⟩ := hjob other job' hj'
    rw [hdisk, ← hpath, ← hcontent]
    exact h.placing other job'' n hj'' (hstage.trans hp)
  case done =>
    intro other job' hj' hd
    obtain ⟨job'', hj'', hpath, hcontent, hstage⟩ := hjob other job' hj'
    rw [hdisk, ← hpath, ← hcontent]
    exact h.done other job'' hj'' (by rwa [hstage])

end Cache

namespace Session

/-- The formats of the exporters. -/
def AreKnown (orders : List (Document × Format)) : Prop :=
  ∀ order ∈ orders, order.2 = .typeScript ∨ order.2 = .javaScript

variable {s : Session} {orders : List (Document × Format)} {c' : Cache}
  {deliveries' : List Delivery}

/-- The files of the writes stay there. -/
theorem Turn.steady (h : s.Turn orders c' deliveries') (hknown : AreKnown orders)
    (hs : s.cache.Steady) : c'.Steady := by
  cases h with
  | still => exact hs
  | step i d d' order c' there ordered turn =>
    have hformat := hknown order (List.mem_of_getElem? ordered)
    generalize d.stage = stage at turn
    generalize d'.stage = stage' at turn
    cases turn with
    | begins out content path artifact text free =>
      obtain ⟨dir, name, hpath⟩ := artifact.exists_isLasting hformat
      exact hs.open_ free hpath (Document.ne_empty_of_textBelow hformat text)
    | _ => exact hs
  | write id job there inFlight => exact hs.advance there inFlight
  | settle id job there ended fresh => exact hs.settle there ended fresh

/-- A file is at a path, and nothing under way would write there again: the write to the path is
done, or there is none and no delivery has missed the file. -/
structure Endures (c : Cache) (deliveries : List Delivery) (path : AbsolutePath) (x : String) :
    Prop where
  content : c.disk.content? path = some x
  safe : (∃ (id : Nat) (job : Job), c.jobs[id]? = some job ∧ job.path = path ∧ job.stage.isDone) ∨
    (∀ (id : Nat) (job : Job), c.jobs[id]? = some job → job.path ≠ path) ∧
      ∀ d ∈ deliveries, ∀ out, d.stage = .answered out false → Name.locate c.root out ≠ .ok path

variable {path : AbsolutePath} {x : String}

/-- Whoever looks for a file that endures finds it. -/
theorem Endures.exists_ {deliveries : List Delivery} {c : Cache}
    (h : Endures c deliveries path x) : c.disk.exists_ path = true :=
  exists_of_content? h.content

theorem Endures.of_step {i : Nat} {d d' : Delivery} {order : Document × Format}
    (h : Endures s.cache s.deliveries path x) (hd : s.deliveries[i]? = some d)
    (hturn : Delivery.Stage.Turn s.cache order.1 order.2 d.stage c' d'.stage) :
    Endures c' (s.deliveries.set i d') path x := by
  have hothers : (∀ e ∈ s.deliveries, ∀ out, e.stage = .answered out false →
      Name.locate s.cache.root out ≠ .ok path) →
      (∀ out, d'.stage = .answered out false → Name.locate s.cache.root out ≠ .ok path) →
      ∀ e ∈ s.deliveries.set i d', ∀ out, e.stage = .answered out false →
        Name.locate s.cache.root out ≠ .ok path := by
    intro hall hself e he
    rcases List.mem_or_eq_of_mem_set he with he | rfl
    · exact hall e he
    · exact hself
  generalize hfirst : d.stage = first at hturn
  generalize hlast : d'.stage = last at hturn
  cases hturn with
  | answers out place artifact =>
    refine ⟨h.content, h.safe.imp_right fun ⟨hjobs, hall⟩ => ⟨hjobs, hothers hall ?_⟩⟩
    intro out' hmissed hplace
    rw [hlast] at hmissed
    obtain ⟨rfl, hmissing⟩ := Delivery.Stage.answered.inj hmissed
    cases artifact.path.symm.trans hplace
    rw [h.exists_] at hmissing
    cases hmissing
  | begins out content place artifact text free =>
    refine ⟨h.content, ?_⟩
    rcases h.safe with ⟨id, job, hj, hpath, hdone⟩ | ⟨hjobs, hall⟩
    · exact Or.inl ⟨id, job, getElem?_jobs_open_.2 (Or.inl hj), hpath, hdone⟩
    · -- Whoever begins a write has missed its file, and this one nobody has missed.
      have hother : place ≠ path := by
        rintro rfl
        exact hall d (List.mem_of_getElem? hd) out hfirst artifact.path
      refine Or.inr ⟨fun id job hj => ?_, hothers hall (by rw [hlast]; simp [Delivery.Stage.waiting])⟩
      rcases getElem?_jobs_open_.1 hj with hj | ⟨-, rfl⟩
      · exact hjobs id job hj
      · exact hother
  | _ =>
    refine ⟨h.content, h.safe.imp_right fun ⟨hjobs, hall⟩ => ⟨hjobs, hothers hall ?_⟩⟩
    rw [hlast]
    simp [Delivery.Stage.waiting, Delivery.Stage.served]

/-- What endures is not being written: a write to its path would be done. -/
theorem Endures.ne_of_inFlight (h : Endures s.cache s.deliveries path x) (hb : s.cache.Balanced)
    {id : Nat} {job : Job} (hj : s.cache.jobs[id]? = some job) (hf : job.stage.inFlight) :
    path ≠ job.path := by
  rintro rfl
  rcases h.safe with ⟨id', job', hj', hpath', hdone⟩ | ⟨hjobs, -⟩
  · have hid := hb.eq_of_stands hj hj' hpath' (hb.stands_of_inFlight hj hf)
      (by simp [Job.stands, hdone])
    subst hid
    cases hj.symm.trans hj'
    rw [isDone_eq_false_of_inFlight hf] at hdone
    cases hdone
  · exact hjobs id job hj rfl

/-- A change of a write leaves a file that endures as safe as it was. -/
theorem Endures.of_modify (h : Endures s.cache s.deliveries path x) (hbooks : Books s.cache c')
    (hroot : c'.root = s.cache.root) (hcontent : c'.disk.content? path = some x) {id : Nat}
    {job : Job} {f : Job → Job} (hj : s.cache.jobs[id]? = some job)
    (hpath : (f job).path = job.path) (hjobs : c'.jobs = s.cache.jobs.modify id f) :
    Endures c' s.deliveries path x := by
  refine ⟨hcontent, h.safe.imp hbooks.exists_done fun ⟨hnone, hall⟩ =>
    ⟨fun other job' hj' => ?_, by rwa [hroot]⟩⟩
  have hothers : ∀ job ∈ s.cache.jobs, job.path ≠ path := by
    intro job hmem
    obtain ⟨id', hid'⟩ := List.getElem?_of_mem hmem
    exact hnone id' job hid'
  exact forall_path_modify (P := (· ≠ path)) hj hpath hjobs hothers job' (List.mem_of_getElem? hj')

/-- A file that endures goes on to endure. -/
theorem Endures.turn (h : Endures s.cache s.deliveries path x) (hs : s.cache.Steady)
    {dir : List String} {name : String} (hpath : s.cache.root.IsLasting path dir name)
    (hturn : s.Turn orders c' deliveries') : Endures c' deliveries' path x := by
  cases hturn with
  | still => exact h
  | step i d d' order c' there ordered turn => exact h.of_step there turn
  | write id job there inFlight =>
    obtain ⟨stage, d', hturns, hstroke⟩ := exists_stroke_advance there inFlight
    obtain ⟨dir', name', hpath'⟩ := hs.lasting id job there
    have hcontent : (s.cache.advance id).disk.content? path = some x := by
      rw [hturns.disk]
      exact hstroke.content?_of_ne hs.free hpath' (fun n => hs.placing id job n there) hpath
        (h.ne_of_inFlight hs.balanced there inFlight) h.content
    exact h.of_modify (books_advance s.cache id) (sameWorld_advance s.cache id).root hcontent there
      rfl hturns.jobs
  | settle id job there ended fresh =>
    exact h.of_modify (books_settle s.cache id) (sameWorld_settle s.cache id).root
      (by rw [disk_settle]; exact h.content) there rfl (jobs_settle there ended fresh)

end Session
end SchemaArtifacts
