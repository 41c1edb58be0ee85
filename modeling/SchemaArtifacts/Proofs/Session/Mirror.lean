import SchemaArtifacts.Proofs.Cache.Twin
import SchemaArtifacts.Proofs.Session.Lone

/-!
# A delivery among others

What becomes of a document that is exported together with others is what would have become of it on
its own. A delivery among others is compared, step by step, with the one delivery of a lone session:
each step that concerns it is matched by what the lone session does next, and no other step makes a
difference to it.

## Main definitions

* `Cache.IsImpartial` — what befalls the tries to write a path does not depend on other paths
* `Session.Alike` — how far two deliveries of a document have come, if they have come equally far
* `Session.Mirrors` — a lone session shows what has become of a delivery among others

## Main results

* `Session.Mirrors.step` — a step of the delivery itself
* `Session.Mirrors.write`, `Session.Mirrors.settle` — a step of its write, and the note of its end
-/

namespace SchemaArtifacts

open Cache Disk

/-- What befalls a try to write a path depends on the number of tries to write it before, and what
is drawn are double precision numbers. -/
structure Cache.IsImpartial (c : Cache) : Prop where
  faults : ∀ (tries tries' : List AbsolutePath) (path : AbsolutePath),
    tries.count path = tries'.count path → c.faults tries path = c.faults tries' path
  draws : ∀ n, ∃ x, c.draws n = .real x

/-- A path to which there is no write is not known as written. -/
theorem Cache.Balanced.isWritten_eq_false {c : Cache} {path : AbsolutePath} (h : c.Balanced)
    (hnone : ∀ job ∈ c.jobs, job.path ≠ path) : c.isWritten path = false := by
  by_contra hwritten
  rw [Bool.not_eq_false, isWritten, List.contains_iff_mem, h.mem_written] at hwritten
  obtain ⟨id, job, hj, hp, -⟩ := hwritten
  exact hnone job (List.mem_of_getElem? hj) hp

theorem Cache.attempts_settle (c : Cache) (id : Nat) : (c.settle id).attempts = c.attempts := by
  unfold settle
  split
  · rfl
  · split
    · rfl
    · split
      · rfl
      · dsimp only
        split <;> rfl

/-- A delivery waits for no write yet. -/
def Delivery.Stage.isEarly (stage : Delivery.Stage) : Bool :=
  match stage with
  | .ready | .looking _ _ | .answered _ _ => true
  | _ => false

namespace Session

variable {c₀ c c' : Cache} {doc : Document} {format : Format} {path base : AbsolutePath}
  {top dir dir' : List String} {name name' out : String} {stage stage' : Delivery.Stage} {t : Session}

/-- A delivery in one cache and the delivery of the same document in a cache of its own have come
equally far, and so have their writes. -/
inductive Alike (path : AbsolutePath) (place : List String) (c c' : Cache) :
    Delivery.Stage → Delivery.Stage → Prop where
  | before (stage : Delivery.Stage) (early : stage.isEarly) (none : ∀ job ∈ c.jobs, job.path ≠ path)
      (none' : c'.jobs = []) : Alike path place c c' stage stage
  | during (out content : String) (id : Nat) (job : Job) (there : c.jobs[id]? = some job)
      (here : job.path = path) (there' : c'.jobs = [job])
      (way : job.stage.hasWay → AreFirm c.disk c'.disk place) :
      Alike path place c c' (.waiting out content id) (.waiting out content 0)
  | after (result : Except Failure ExportStatus) :
      Alike path place c c' (.ended result) (.ended result)

/-- A lone session shows what has become of a delivery among others: the two have come equally far,
and the disks are the same for the artifact. -/
structure Mirrors (c₀ : Cache) (doc : Document) (format : Format) (path base : AbsolutePath)
    (top dir : List String) (name : String) (c : Cache) (stage : Delivery.Stage) (t : Session) :
    Prop where
  twin : Twin c₀.disk base top dir name c.disk t.cache.disk
  tries : t.cache.attempts.count path = c.attempts.count path
  alike : ∃ stage', t.IsLone c₀ doc format stage' ∧ Alike path (top ++ dir) c t.cache stage stage'

/-- A delivery that looks for its artifact for the first time is matched by the same. -/
theorem Alike.step_before (htwin : Twin c₀.disk base top dir name c.disk c'.disk)
    (hpath : base.IsLasting path dir name) (hb : c.Balanced) (hb' : c'.Balanced)
    (hroot : c'.root = c.root) (hartifact : doc.HasArtifact c.root format out path)
    (hearly : stage.isEarly) (hnone : ∀ job ∈ c.jobs, job.path ≠ path) (hnone' : c'.jobs = [])
    {c₁ c₁' : Cache} {stage₁ stage₁' : Delivery.Stage}
    (hturn : Delivery.Stage.Turn c doc format stage c₁ stage₁)
    (hturn' : Delivery.Stage.Turn c' doc format stage c₁' stage₁') :
    Alike path (top ++ dir) c₁ c₁' stage₁ stage₁' ∧ c₁.disk = c.disk ∧ c₁'.disk = c'.disk ∧
      c₁.attempts = c.attempts ∧ c₁'.attempts = c'.attempts := by
  have hartifact' : doc.HasArtifact c'.root format out path := by rwa [hroot]
  cases hturn with
  | refused result other none => exact absurd hartifact (none out path)
  | known out' path' artifact written =>
    obtain ⟨rfl, rfl⟩ := hartifact.unique artifact
    rw [hb.isWritten_eq_false hnone] at written
    cases written
  | looks out' path' artifact unknown =>
    cases hturn' with
    | refused result other none => exact absurd hartifact' (none out path)
    | known out'' path'' artifact' written =>
      rw [hb'.isWritten_eq_false (by simp [hnone'])] at written
      cases written
    | looks out'' path'' artifact' unknown' =>
      obtain ⟨rfl, rfl⟩ := hartifact.unique artifact
      obtain ⟨rfl, rfl⟩ := hartifact'.unique artifact'
      exact ⟨.before _ rfl hnone hnone', rfl, rfl, rfl, rfl⟩
  | answers out' path' artifact =>
    cases hturn' with
    | answers _ _ artifact' =>
      obtain ⟨rfl, rfl⟩ := hartifact.unique artifact
      rw [htwin.exists_ hpath]
      exact ⟨.before _ rfl hnone hnone', rfl, rfl, rfl, rfl⟩
  | present out' =>
    cases hturn' with
    | present => exact ⟨.after _, rfl, rfl, rfl, rfl⟩
  | textless out' e text =>
    rw [← hroot] at text
    cases hturn' with
    | textless _ e' text' =>
      cases text.symm.trans text'
      exact ⟨.after _, rfl, rfl, rfl, rfl⟩
    | begins _ _ _ _ text' => cases text.symm.trans text'
    | joins _ _ _ _ _ text' => cases text.symm.trans text'
    | late _ _ _ _ _ text' => cases text.symm.trans text'
  | begins out' content path' artifact text free =>
    obtain ⟨rfl, rfl⟩ := hartifact.unique artifact
    rw [← hroot] at text
    cases hturn' with
    | textless _ e' text' => cases text.symm.trans text'
    | begins _ content' path'' artifact' text' free' =>
      cases text.symm.trans text'
      obtain ⟨-, rfl⟩ := hartifact'.unique artifact'
      have hthere : (c.open_ path'' content).jobs[c.jobs.length]? =
          some { path := path'', content } := getElem?_jobs_open_.2 (Or.inr ⟨rfl, rfl⟩)
      have hlone : (c'.open_ path'' content).jobs = [{ path := path'', content }] := by
        simp [open_, hnone']
      rw [hnone', List.length_nil]
      exact ⟨.during _ content _ _ hthere rfl hlone (fun hway => absurd hway Bool.false_ne_true), rfl, rfl,
        rfl, rfl⟩
    | joins _ _ _ _ _ _ _ there => simp [hnone'] at there
    | late _ _ _ _ _ _ _ there => simp [hnone'] at there
  | joins out' content id job artifact text pending there =>
    obtain ⟨-, rfl⟩ := hartifact.unique artifact
    exact absurd rfl (hnone job (List.mem_of_getElem? there))
  | late out' content id job artifact text pending there =>
    obtain ⟨-, rfl⟩ := hartifact.unique artifact
    exact absurd rfl (hnone job (List.mem_of_getElem? there))
  | waits => cases hearly
  | served => cases hearly
  | rests => cases hearly

/-- A step of the delivery itself is matched by what the lone session does next, unless it goes on to
wait. -/
theorem Mirrors.step (h : Mirrors c₀ doc format path base top dir name c stage t)
    (hpath : base.IsLasting path dir name) (hb : c.Balanced) (hworld : c₀.SameWorld c)
    (hartifact : doc.HasArtifact c₀.root format out path) {c₁ : Cache} {stage₁ : Delivery.Stage}
    (hturn : Delivery.Stage.Turn c doc format stage c₁ stage₁) :
    ∃ t', (t' = t ∨ t' = t.onward) ∧ Mirrors c₀ doc format path base top dir name c₁ stage₁ t' := by
  obtain ⟨stage', hlone, halike⟩ := h.alike
  have hb' := hlone.steady.runs.balanced
  cases halike with
  | before _ early none none' =>
    obtain ⟨stage₁', hturn', hlone'⟩ := hlone.exists_onward fun out' content id hstage => by
      rw [hstage] at early
      cases early
    obtain ⟨halike, hdisk, hdisk', htries, htries'⟩ := Alike.step_before h.twin hpath hb hb'
      (hlone.world.root.trans hworld.root.symm) (by rwa [hworld.root]) early none none' hturn hturn'
    exact ⟨t.onward, Or.inr rfl, by rw [hdisk, hdisk']; exact h.twin,
      by rw [htries, htries']; exact h.tries, stage₁', hlone', halike⟩
  | during out' content id job there here there' way =>
    obtain ⟨rfl, ⟨rfl, -⟩ | ⟨job', hj, hsettled, hended, rfl⟩⟩ := hturn.of_waiting rfl
    · exact ⟨t, Or.inl rfl, h.twin, h.tries, _, hlone, .during out' content id job there here there' way⟩
    · cases there.symm.trans hj
      have hj' : t.cache.jobs[0]? = some job := by rw [there']; rfl
      have hsettled' : t.cache.isSettled 0 = true := by
        simpa [isSettled, hj, hj'] using hsettled
      have hended' : t.cache.hasEnded 0 = true := by
        rw [Delivery.hasEnded_iff hj', hended, Bool.not_false]
      obtain ⟨stage₁', hturn', hlone'⟩ := hlone.exists_onward fun out'' content' id' hstage => by
        obtain ⟨-, rfl⟩ := Delivery.Stage.waiting_inj hstage
        exact ⟨hended', hsettled'⟩
      obtain ⟨hcache, ⟨-, hunsettled⟩ | ⟨job'', -, -, -, rfl⟩⟩ := hturn'.of_waiting rfl
      · rw [hsettled'] at hunsettled
        cases hunsettled
      · have hserved : Delivery.Stage.served t.cache 0 = .served c₁ id := by
          simp only [Delivery.Stage.served, outcome, hj, hj']
        rw [hserved] at hlone'
        exact ⟨t.onward, Or.inr rfl, by rw [hcache]; exact h.twin, by rw [hcache]; exact h.tries, _,
          hlone', .after _⟩
  | after result =>
    cases hturn with
    | rests => exact ⟨t, Or.inl rfl, h.twin, h.tries, _, hlone, .after result⟩

/-- A step of another delivery makes no difference. -/
theorem Mirrors.step_other (h : Mirrors c₀ doc format path base top dir name c stage t)
    {doc' : Document} {format' : Format} {c₁ : Cache} {other other' : Delivery.Stage}
    (hne : ∀ out' path', doc'.HasArtifact c.root format' out' path' → path' ≠ path)
    (hturn : Delivery.Stage.Turn c doc' format' other c₁ other') :
    Mirrors c₀ doc format path base top dir name c₁ stage t := by
  cases hturn with
  | begins out' content path' artifact text free =>
    obtain ⟨stage', hlone, halike⟩ := h.alike
    refine ⟨h.twin, h.tries, stage', hlone, ?_⟩
    cases halike with
    | before _ early none none' =>
      refine .before stage early (fun job hjob => ?_) none'
      rcases List.mem_append.1 hjob with hjob | hjob
      · exact none job hjob
      · rw [List.mem_singleton.1 hjob]
        exact hne out' path' artifact
    | during out'' content' id job there here there' way =>
      exact .during out'' content' id job (getElem?_jobs_open_.2 (Or.inl there)) here there' way
    | after result => exact .after result
  | _ => exact h

variable {id : Nat} {job : Job}

/-- A step of the write is matched by the same step of the write in the lone session. -/
theorem Mirrors.write (h : Mirrors c₀ doc format path base top dir name c stage t)
    (hpath : base.IsLasting path dir name) (himpartial : c₀.IsImpartial) (hs : c.Steady)
    (hworld : c₀.SameWorld c) {content : String} (hstage : stage = .waiting out content id)
    (hj : c.jobs[id]? = some job) (hf : job.stage.inFlight) :
    Mirrors c₀ doc format path base top dir name (c.advance id) stage t.onward := by
  obtain ⟨stage', hlone, halike⟩ := h.alike
  cases halike with
  | before _ early =>
    rw [hstage] at early
    cases early
  | after => cases hstage
  | during out' content' id' job' there here there' way =>
    obtain ⟨-, rfl⟩ := Delivery.Stage.waiting_inj hstage
    cases there.symm.trans hj
    subst here
    have hj' : t.cache.jobs[0]? = some job := by rw [there']; rfl
    have hs' := hlone.steady.steady
    obtain ⟨honward, hlone'⟩ := hlone.onward_of_inFlight hj' hf
    obtain ⟨x, hx⟩ := himpartial.draws c.drawn
    obtain ⟨y, hy⟩ := himpartial.draws t.cache.drawn
    -- The same befalls the two, for they have been tried equally often.
    have hfault : t.cache.faults t.cache.attempts job.path = c.faults c.attempts job.path := by
      rw [hlone.world.faults, hworld.faults]
      exact himpartial.faults _ _ _ h.tries
    have hnext : c.nextOf job =
        job.next c.backoff (c.faults c.attempts job.path) (.real x) c.disk := by
      rw [nextOf, hworld.draws, hx]
    have hnext' : t.cache.nextOf job =
        job.next c.backoff (c.faults c.attempts job.path) (.real y) t.cache.disk := by
      rw [nextOf, hlone.world.draws, hy, hfault, hlone.world.backoff, hworld.backoff]
    obtain ⟨hsame, htwin, hway⟩ := h.twin.next hpath hf way (fun n => hs.placing id' job n hj)
      (fun n => hs'.placing 0 job n hj') c.backoff (c.faults c.attempts job.path) x y
    rw [← hnext, ← hnext'] at hsame htwin hway
    have hturns := turns_advance hj hf
    have hturns' := turns_advance hj' hf
    refine ⟨?_, ?_, _, hlone', ?_⟩
    · rw [honward, hturns.disk, hturns'.disk]
      exact htwin
    · rw [honward, attempts_advance hj, attempts_advance hj']
      split
      · rw [List.count_cons, List.count_cons, h.tries]
      · exact h.tries
    · refine .during out' content' id' { job with stage := (c.nextOf job).1 } (hturns.getElem? hj) rfl
        ?_ ?_
      · rw [honward, hturns'.jobs, there', hsame]
        rfl
      · rw [honward, hturns.disk, hturns'.disk]
        exact hway

/-- A step of the write of another artifact makes no difference. -/
theorem Mirrors.write_other (h : Mirrors c₀ doc format path base top dir name c stage t)
    (hpath : base.IsLasting path dir name) (hs : c.Steady) (hj : c.jobs[id]? = some job)
    (hf : job.stage.inFlight) (hjob : base.IsLasting job.path dir' name')
    (hapart : path.IsApart job.path) :
    Mirrors c₀ doc format path base top dir name (c.advance id) stage t := by
  obtain ⟨next, d, hturns, hstroke⟩ := exists_stroke_advance hj hf
  obtain ⟨stage', hlone, halike⟩ := h.alike
  have hfull : ∀ n, job.stage = .placing n →
      c.disk.content? (temporary job.path) = some job.content := fun n => hs.placing id job n hj
  have hjobs : ∀ {other : Nat} {job' : Job}, (c.advance id).jobs[other]? = some job' ↔
      other ≠ id ∧ c.jobs[other]? = some job' ∨ other = id ∧ job' = { job with stage := next } :=
    getElem?_modify_jobs hj hturns.jobs
  refine ⟨?_, ?_, stage', hlone, ?_⟩
  · rw [hturns.disk]
    exact h.twin.stroke hstroke hjob hpath hapart hfull
  · rw [attempts_advance hj]
    split
    · rw [List.count_cons_of_ne hapart.ne.symm]
      exact h.tries
    · exact h.tries
  · cases halike with
    | before _ early none none' =>
      refine .before stage early (fun job' hjob' => ?_) none'
      obtain ⟨other, hother⟩ := List.getElem?_of_mem hjob'
      rcases hjobs.1 hother with ⟨-, hother⟩ | ⟨-, rfl⟩
      · exact none job' (List.mem_of_getElem? hother)
      · exact hapart.ne.symm
    | during out' content id' job' there here there' way =>
      have hne : id' ≠ id := by
        rintro rfl
        cases there.symm.trans hj
        exact hapart.ne here.symm
      refine .during out' content id' job' (hjobs.2 (Or.inl ⟨hne, there⟩)) here there' fun hway => ?_
      obtain ⟨hfirm, hfirm'⟩ := way hway
      rw [hturns.disk]
      exact ⟨hfirm.keeps (hstroke.keeps h.twin.left.site.isFreeBelow hjob hfull), hfirm'⟩
    | after result => exact .after result

/-- The note of the end of the write is matched by the same in the lone session; that of another makes
no difference. -/
theorem Mirrors.settle (h : Mirrors c₀ doc format path base top dir name c stage t)
    (hj : c.jobs[id]? = some job) (hended : job.stage.inFlight = false)
    (hfresh : job.settled = false) : ∃ t', (t' = t ∨ t' = t.onward) ∧
      Mirrors c₀ doc format path base top dir name (c.settle id) stage t' := by
  obtain ⟨stage', hlone, halike⟩ := h.alike
  have hjobs : ∀ {other : Nat} {job' : Job}, (c.settle id).jobs[other]? = some job' ↔
      other ≠ id ∧ c.jobs[other]? = some job' ∨ other = id ∧ job' = { job with settled := true } :=
    getElem?_modify_jobs hj (jobs_settle hj hended hfresh)
  have htwin : Twin c₀.disk base top dir name (c.settle id).disk t.cache.disk := by
    rw [disk_settle]
    exact h.twin
  have htries : t.cache.attempts.count path = (c.settle id).attempts.count path := by
    rw [attempts_settle]
    exact h.tries
  cases halike with
  | before _ early none none' =>
    have hothers : ∀ job' ∈ (c.settle id).jobs, job'.path ≠ path :=
      forall_path_modify (P := (· ≠ path)) hj rfl (jobs_settle hj hended hfresh) none
    exact ⟨t, Or.inl rfl, htwin, htries, stage, hlone, .before stage early hothers none'⟩
  | during out' content id' job' there here there' way =>
    by_cases hid : id' = id
    · subst hid
      cases there.symm.trans hj
      have hj' : t.cache.jobs[0]? = some job := by rw [there']; rfl
      obtain ⟨honward, hlone'⟩ := hlone.onward_of_ended hj' hended hfresh
      refine ⟨t.onward, Or.inr rfl, ?_, ?_, _, hlone', ?_⟩
      · rw [honward, disk_settle, disk_settle]
        exact h.twin
      · rw [honward, attempts_settle, attempts_settle]
        exact h.tries
      · refine .during out' content id' { job with settled := true } (hjobs.2 (Or.inr ⟨rfl, rfl⟩)) here
          ?_ ?_
        · rw [honward, jobs_settle hj' hended hfresh, there']
          rfl
        · rw [honward, disk_settle, disk_settle]
          exact way
    · refine ⟨t, Or.inl rfl, htwin, htries, _, hlone, ?_⟩
      refine .during out' content id' job' (hjobs.2 (Or.inl ⟨hid, there⟩)) here there' ?_
      rw [disk_settle]
      exact way
  | after result => exact ⟨t, Or.inl rfl, htwin, htries, _, hlone, .after result⟩

end Session
end SchemaArtifacts
