import SchemaArtifacts.Proofs.Session.Mirror

/-!
# Exports do not affect each other

Documents are exported together, and their exports take their steps in any order. If their artifacts
keep apart, each export ends as it would have ended on its own, with the same content at the path of
its artifact, whatever becomes of the others; and no other file is touched.

## Main definitions

* `Document.artifact?`, `Document.AreApart` — the path of an artifact, and documents whose artifacts
  keep apart
* `Session.EndsAlone` — how the export of a document can end on its own

## Main results

* `Session.Mirrors.turn`, `Session.exists_mirrors` — a lone session shows what becomes of a delivery
* `Session.ahead_or_isTaken` — what a session leaves alone
* `Session.export_alone` — an export among others ends as it does on its own
-/

namespace SchemaArtifacts

open Cache Disk

/-- The path of the artifact of a document. -/
def Document.artifact? (root : AbsolutePath) (format : Format) (doc : Document) :
    Option AbsolutePath :=
  match doc.startBelow root format with
  | .error _ => none
  | .ok out => (Name.locate root out).toOption

/-- No artifact of these documents is in the way of another. -/
def Document.AreApart (root : AbsolutePath) (format : Format) (docs : List Document) : Prop :=
  (docs.filterMap (Document.artifact? root format)).Pairwise AbsolutePath.IsApart

namespace Document

variable {root path path' : AbsolutePath} {format : Format} {doc doc' : Document}
  {docs : List Document} {out out' : String}

instance : Decidable (AreApart root format docs) := by
  unfold AreApart
  infer_instance

theorem areApart_singleton (root : AbsolutePath) (format : Format) (doc : Document) :
    AreApart root format [doc] := by
  rw [AreApart, List.pairwise_filterMap]
  exact List.pairwise_singleton _ doc

theorem HasArtifact.artifact? (h : doc.HasArtifact root format out path) :
    doc.artifact? root format = some path := by
  simp only [Document.artifact?, h.start, h.path, Except.toOption]

theorem AreApart.isApart (h : AreApart root format docs) {i j : Nat} (hne : i ≠ j)
    (hi : docs[i]? = some doc) (hj : docs[j]? = some doc')
    (hartifact : doc.HasArtifact root format out path)
    (hartifact' : doc'.HasArtifact root format out' path') : path.IsApart path' := by
  rw [AreApart, List.pairwise_filterMap, List.pairwise_iff_getElem] at h
  obtain ⟨hilt, rfl⟩ := List.getElem?_eq_some_iff.1 hi
  obtain ⟨hjlt, rfl⟩ := List.getElem?_eq_some_iff.1 hj
  rcases Nat.lt_or_gt_of_ne hne with hlt | hlt
  · exact h i j hilt hjlt hlt path hartifact.artifact? path' hartifact'.artifact?
  · exact (h j i hjlt hilt hlt path' hartifact'.artifact? path hartifact.artifact?).symm

end Document

/-- A path that lasts below a root lasts below every directory above. -/
theorem AbsolutePath.IsLasting.join {base path : AbsolutePath} {names dir : List String}
    {name : String} (h : (base.join names).IsLasting path dir name)
    (hplain : ∀ n ∈ names, IsPlain n) : base.IsLasting path (names ++ dir) name := by
  refine ⟨?_, ?_, h.lasting⟩
  · rw [h.path]
    simp [AbsolutePath.join]
  · rw [List.append_assoc]
    exact List.forall_mem_append.2 ⟨hplain, h.plain⟩

namespace Session

variable {c₀ : Cache} {doc : Document} {format : Format} {path base : AbsolutePath}
  {top dir names : List String} {name out : String} {s t : Session} {d : Delivery}
  {orders : List (Document × Format)} {i : Nat}

/-- A write in flight is one of the artifact of a document for which a delivery waits. -/
theorem IsSteady.exists_waiting (hs : s.IsSteady orders) {id : Nat} {job : Job}
    (hj : s.cache.jobs[id]? = some job) (hf : job.stage.inFlight) :
    ∃ (j : Nat) (e : Delivery) (order : Document × Format) (out content out' : String),
      s.deliveries[j]? = some e ∧ orders[j]? = some order ∧ e.stage = .waiting out content id ∧
        order.1.HasArtifact s.cache.root order.2 out' job.path := by
  obtain ⟨j, e, out, content, he, hstage⟩ := hs.held id job hj hf
  obtain ⟨order, horder⟩ := hs.runs.exists_order he
  obtain ⟨out', job', hj', hartifact⟩ := (hs.runs.sound j e order he horder).of_waiting hstage
  cases hj.symm.trans hj'
  exact ⟨j, e, order, out, content, out', he, horder, hstage, hartifact⟩

/-- What a session does is matched by what the lone session does next, or makes no difference. -/
theorem Mirrors.turn (h : Mirrors c₀ doc format path base top dir name s.cache d.stage t)
    (hs : s.IsSteady orders) (hworld : c₀.SameWorld s.cache) (himpartial : c₀.IsImpartial)
    (hroot : c₀.root = base.join names) (hplain : ∀ n ∈ names, IsPlain n)
    (hpath : base.IsLasting path dir name) (hd : s.deliveries[i]? = some d)
    (hi : orders[i]? = some (doc, format)) (hartifact : doc.HasArtifact c₀.root format out path)
    (hapart : ∀ (j : Nat) (order : Document × Format) (out' : String) (path' : AbsolutePath),
      j ≠ i → orders[j]? = some order → order.1.HasArtifact c₀.root order.2 out' path' →
      path.IsApart path') {c' : Cache} {deliveries' : List Delivery}
    (hturn : s.Turn orders c' deliveries') :
    ∃ d' t', deliveries'[i]? = some d' ∧ (t' = t ∨ t' = t.onward) ∧
      Mirrors c₀ doc format path base top dir name c' d'.stage t' := by
  cases hturn with
  | still => exact ⟨d, t, hd, Or.inl rfl, h⟩
  | step j e e' order c' there ordered turn =>
    obtain ⟨d', hd', ⟨rfl, rfl⟩ | ⟨hji, rfl⟩⟩ := exists_getElem?_set hd j e'
    · cases hd.symm.trans there
      cases hi.symm.trans ordered
      obtain ⟨t', ht', hmirrors⟩ := h.step hpath hs.runs.balanced hworld hartifact turn
      exact ⟨_, t', hd', ht', hmirrors⟩
    · refine ⟨_, t, hd', Or.inl rfl, h.step_other ?_ turn⟩
      intro out' path' hartifact'
      rw [hworld.root] at hartifact'
      exact (hapart j order out' path' hji ordered hartifact').ne.symm
  | write id job there inFlight =>
    obtain ⟨j, e, order, out', content, out'', he, ordered, hstage, hartifact'⟩ :=
      hs.exists_waiting there inFlight
    by_cases hji : j = i
    · subst hji
      cases hd.symm.trans he
      exact ⟨d, t.onward, hd, Or.inr rfl,
        h.write hpath himpartial hs.steady hworld hstage there inFlight⟩
    · rw [hworld.root] at hartifact'
      obtain ⟨dir', name', hjob⟩ := hs.steady.lasting id job there
      rw [hworld.root, hroot] at hjob
      exact ⟨d, t, hd, Or.inl rfl, h.write_other hpath hs.steady there inFlight (hjob.join hplain)
        (hapart j order out'' job.path hji ordered hartifact')⟩
  | settle id job there ended fresh =>
    obtain ⟨t', ht', hmirrors⟩ := h.settle there ended fresh
    exact ⟨d, t', hd, ht', hmirrors⟩

/-- A lone session shows what becomes of a delivery among others, whatever the course of moves. -/
theorem exists_mirrors (h : Mirrors c₀ doc format path base top dir name s.cache d.stage t)
    (hs : s.IsSteady orders) (hworld : c₀.SameWorld s.cache) (himpartial : c₀.IsImpartial)
    (hroot : c₀.root = base.join names) (hplain : ∀ n ∈ names, IsPlain n)
    (hpath : base.IsLasting path dir name) (hd : s.deliveries[i]? = some d)
    (hi : orders[i]? = some (doc, format)) (hartifact : doc.HasArtifact c₀.root format out path)
    (hapart : ∀ (j : Nat) (order : Document × Format) (out' : String) (path' : AbsolutePath),
      j ≠ i → orders[j]? = some order → order.1.HasArtifact c₀.root order.2 out' path' →
      path.IsApart path') {moves : List Move} (horderly : ∀ m ∈ moves, m.isOrderly) :
    ∃ d' n, (s.playAll moves).deliveries[i]? = some d' ∧
      Mirrors c₀ doc format path base top dir name (s.playAll moves).cache d'.stage
        (onward^[n] t) := by
  -- Each move is answered by one step of the lone session or by none; the steps add up.
  induction moves generalizing s d t with
  | nil => exact ⟨d, 0, hd, h⟩
  | cons m moves ih =>
    have hm := horderly m (by simp)
    have hworld' := hworld.trans (operation_play s m).sameWorld
    obtain ⟨d', t', hd', ht', hmirrors⟩ := h.turn hs hworld himpartial hroot hplain hpath hd hi
      hartifact hapart (turn_play hs.runs hm)
    obtain ⟨d'', n, hd'', hlast⟩ :=
      ih hmirrors (hs.move hm) hworld' hd' fun m hm => horderly m (by simp [hm])
    rcases ht' with rfl | rfl
    · exact ⟨d'', n, hd'', hlast⟩
    · exact ⟨d'', n + 1, hd'', hlast⟩

/-- Before anything has happened, a lone session shows what has become of a delivery. -/
theorem mirrors_ofDocuments (hfresh : c₀.IsFresh)
    (hformat : format = .typeScript ∨ format = .javaScript) (hsite : Site c₀.disk base top)
    (dir : List String) (name : String) :
    Mirrors c₀ doc format path base top dir name c₀ .ready (ofDocuments c₀ format 1 [doc]) := by
  have hsteady := hfresh.steady (isFreeBelow_of_isLinkFree hsite.linkFree c₀.root)
  exact ⟨hsite.twin dir name, rfl, .ready, isLone_ofDocuments hsteady hfresh.jobs hformat,
    .before .ready rfl (by simp [hfresh.jobs]) hfresh.jobs⟩

/-! ## Documents without an artifact -/

/-- A delivery of a document without an artifact takes one step, whatever the cache holds. -/
theorem exists_next_of_no_artifact (c₀ : Cache) (doc : Document) (format : Format)
    (hnone : ∀ out path, ¬ doc.HasArtifact c₀.root format out path) :
    ∃ result, ∀ c : Cache, c.root = c₀.root →
      Delivery.Stage.next doc format c .ready = (c, .ended result) := by
  have hturn := Delivery.Stage.turn_ready c₀ doc format
  generalize (Delivery.Stage.next doc format c₀ .ready).2 = stage at hturn
  cases hturn with
  | refused result other none always => exact ⟨result, always⟩
  | known out path artifact => exact absurd artifact (hnone out path)
  | looks out path artifact => exact absurd artifact (hnone out path)

variable {result : Except Failure ExportStatus}

theorem turn_of_no_artifact {c c' : Cache} {stage stage' : Delivery.Stage}
    (hnone : ∀ out path, ¬ doc.HasArtifact c.root format out path)
    (hnext : Delivery.Stage.next doc format c .ready = (c, .ended result))
    (hstage : stage = .ready ∨ stage = .ended result)
    (hturn : Delivery.Stage.Turn c doc format stage c' stage') : stage' = .ended result := by
  rcases hstage with rfl | rfl
  · cases hturn with
    | refused result' other none always =>
      have hsame := (always c rfl).symm.trans hnext
      exact (Prod.mk.inj hsame).2
    | known out path artifact => exact absurd artifact (hnone out path)
    | looks out path artifact => exact absurd artifact (hnone out path)
  · cases hturn with
    | rests => rfl

/-- So it has not begun, or has ended in this one way. -/
theorem ready_or_over_of_no_artifact (hs : s.IsSteady orders) (hworld : c₀.SameWorld s.cache)
    (hi : orders[i]? = some (doc, format)) (hd : s.deliveries[i]? = some d)
    (hnone : ∀ out path, ¬ doc.HasArtifact c₀.root format out path)
    (hnext : ∀ c : Cache, c.root = c₀.root →
      Delivery.Stage.next doc format c .ready = (c, .ended result))
    (hstage : d.stage = .ready ∨ d.stage = .ended result) {moves : List Move}
    (horderly : ∀ m ∈ moves, m.isOrderly) :
    ∃ d', (s.playAll moves).deliveries[i]? = some d' ∧
      (d'.stage = .ready ∨ d'.stage = .ended result) := by
  induction moves generalizing s d with
  | nil => exact ⟨d, hd, hstage⟩
  | cons m moves ih =>
    have hm := horderly m (by simp)
    have hworld' := hworld.trans (operation_play s m).sameWorld
    have hturn := turn_play hs.runs hm
    obtain ⟨d', hd', hstage'⟩ : ∃ d', (s.play m).deliveries[i]? = some d' ∧
        (d'.stage = .ready ∨ d'.stage = .ended result) := by
      generalize (s.play m).cache = c' at hturn
      generalize (s.play m).deliveries = deliveries' at hturn ⊢
      cases hturn with
      | step j e e' order c' there ordered turn =>
        obtain ⟨d', hd', ⟨rfl, rfl⟩ | ⟨-, rfl⟩⟩ := exists_getElem?_set hd j e'
        · cases hd.symm.trans there
          cases hi.symm.trans ordered
          have hover := turn_of_no_artifact (by rwa [hworld.root]) (hnext _ hworld.root) hstage turn
          exact ⟨_, hd', Or.inr hover⟩
        · exact ⟨_, hd', hstage⟩
      | _ => exact ⟨d, hd, hstage⟩
    exact ih (hs.move hm) hworld' hd' hstage' fun m hm => horderly m (by simp [hm])

/-! ## What a session leaves alone -/

/-- A step of a write leaves every place alone but those of its two files, and adds directories. -/
theorem ahead_or_located_of_stroke {root : AbsolutePath} {job : Job} {d d' : Disk} {stage : Stage}
    (h : job.Stroke d d' stage) (hfree : IsFreeBelow d root) (hpath : root.IsLasting job.path dir name)
    (hfull : ∀ n, job.stage = .placing n → d.content? (temporary job.path) = some job.content)
    (place : List String) : Ahead d d' place ∨ d'.locate .itself job.path = .ok place ∨
      d'.locate .itself (temporary job.path) = .ok place := by
  have hkeeps := h.keeps hfree hpath hfull
  cases h with
  | grew _ _ grows => exact Or.inl (grows.grows place)
  | wrote temp text _ located =>
    by_cases hplace : place = temp
    · subst hplace
      rw [hpath.temporary] at located ⊢
      obtain ⟨-, -, -, hlocate⟩ := hfree.exists_place (by simp) hpath.plain_temporary located
      exact Or.inr (Or.inr (hkeeps.locate (hlocate .itself)))
    · exact Or.inl (Or.inl (get?_set_ne hplace))
  | placed n old new e _ source target =>
    by_cases hplace : place = new
    · subst hplace
      exact Or.inr (Or.inl (hkeeps.locate target))
    · by_cases hplace' : place = old
      · subst hplace'
        exact Or.inr (Or.inr (hkeeps.locate source))
      · exact Or.inl (Or.inl ((get?_set_ne hplace).trans (get?_erase_ne hplace')))

/-- A place belongs to the artifact of one of these documents, or to its temporary file. -/
def IsTaken (root : AbsolutePath) (orders : List (Document × Format)) (d : Disk)
    (place : List String) : Prop :=
  ∃ order ∈ orders, ∃ out path, order.1.HasArtifact root order.2 out path ∧
    (d.locate .itself path = .ok place ∨ d.locate .itself (temporary path) = .ok place)

theorem IsTaken.keeps {root : AbsolutePath} {d d' : Disk} {place : List String}
    (h : IsTaken root orders d place) (hk : Keeps d d') : IsTaken root orders d' place := by
  obtain ⟨order, horder, out, path, hartifact, hlocate⟩ := h
  exact ⟨order, horder, out, path, hartifact, hlocate.imp hk.locate hk.locate⟩

/-- What a session does at other places is to add directories. -/
theorem ahead_or_isTaken_turn (hs : s.IsSteady orders) {c' : Cache} {deliveries' : List Delivery}
    (hturn : s.Turn orders c' deliveries') : Keeps s.cache.disk c'.disk ∧
      ∀ place, Ahead s.cache.disk c'.disk place ∨ IsTaken s.cache.root orders c'.disk place := by
  cases hturn with
  | still => exact ⟨.refl _, fun place => Or.inl (Or.inl rfl)⟩
  | step j e e' order c' there ordered turn =>
    have hdisk : c'.disk = s.cache.disk := by
      generalize e.stage = stage at turn
      generalize e'.stage = stage' at turn
      cases turn <;> rfl
    rw [hdisk]
    exact ⟨.refl _, fun place => Or.inl (Or.inl rfl)⟩
  | write id job there inFlight =>
    obtain ⟨next, d', hturns, hstroke⟩ := exists_stroke_advance there inFlight
    obtain ⟨dir, name, hpath⟩ := hs.steady.lasting id job there
    have hfull : ∀ n, job.stage = .placing n →
        s.cache.disk.content? (temporary job.path) = some job.content :=
      fun n => hs.steady.placing id job n there
    rw [hturns.disk]
    refine ⟨hstroke.keeps hs.steady.free hpath hfull, fun place => ?_⟩
    refine (ahead_or_located_of_stroke hstroke hs.steady.free hpath hfull place).imp_right fun htaken => ?_
    obtain ⟨j, e, order, -, -, out, -, ordered, -, hartifact⟩ := hs.exists_waiting there inFlight
    exact ⟨order, List.mem_of_getElem? ordered, out, job.path, hartifact, htaken⟩
  | settle id =>
    rw [disk_settle]
    exact ⟨.refl _, fun place => Or.inl (Or.inl rfl)⟩

theorem ahead_or_isTaken (hs : s.IsSteady orders) {moves : List Move}
    (horderly : ∀ m ∈ moves, m.isOrderly) (place : List String) :
    Keeps s.cache.disk (s.playAll moves).cache.disk ∧
      (Ahead s.cache.disk (s.playAll moves).cache.disk place ∨
        IsTaken s.cache.root orders (s.playAll moves).cache.disk place) := by
  induction moves generalizing s with
  | nil => exact ⟨.refl _, Or.inl (Or.inl rfl)⟩
  | cons m moves ih =>
    have hm := horderly m (by simp)
    obtain ⟨hkeeps, hplaces⟩ := ahead_or_isTaken_turn hs (turn_play hs.runs hm)
    obtain ⟨hkeeps', hlater⟩ := ih (hs.move hm) fun m hm => horderly m (by simp [hm])
    rw [(operation_play s m).sameWorld.root] at hlater
    refine ⟨hkeeps.trans hkeeps', ?_⟩
    rcases hlater with hahead | htaken
    · rcases hplaces place with hbefore | htaken
      · exact Or.inl (hbefore.trans hahead)
      · exact Or.inr (htaken.keeps hkeeps')
    · exact Or.inr htaken

theorem Disk.Ahead.file_iff {d d' : Disk} {place : List String} (h : Ahead d d' place) (x : String) :
    d'.get? place = some (.file x) ↔ d.get? place = some (.file x) := by
  rcases h with heq | ⟨hnone, hdirectory⟩
  · rw [heq]
  · rw [hnone, hdirectory]
    simp

/-! ## Exports together and alone -/

theorem isSteady_ofDocuments_of_isFreeBelow (hfresh : c₀.IsFresh)
    (hfree : IsFreeBelow c₀.disk c₀.root) (hformat : format = .typeScript ∨ format = .javaScript)
    (limit : Nat) (docs : List Document) :
    (ofDocuments c₀ format limit docs).IsSteady (docs.map fun doc => (doc, format)) :=
  isSteady_ofDocuments_of_ended (hfresh.steady hfree) (by simp [hfresh.jobs]) hformat limit docs

theorem isSteady_ofDocuments (hfresh : c₀.IsFresh) (hfree : IsLinkFree c₀.disk [])
    (hformat : format = .typeScript ∨ format = .javaScript) (limit : Nat) (docs : List Document) :
    (ofDocuments c₀ format limit docs).IsSteady (docs.map fun doc => (doc, format)) :=
  isSteady_ofDocuments_of_isFreeBelow hfresh (isFreeBelow_of_isLinkFree hfree c₀.root) hformat limit
    docs

/-- Where a session of documents begins: a fresh cache on a tree without links, under a root that goes
up from directories that are there only, with an impartial world around it. -/
structure IsOrdinary (c : Cache) : Prop where
  fresh : c.IsFresh
  linkFree : IsLinkFree c.disk []
  tree : IsTree c.disk
  grounded : c.root.IsGrounded c.disk
  impartial : c.IsImpartial

/-- A document without an artifact is over after one step of the lone session. -/
theorem isLone_onward_of_no_artifact (h : IsOrdinary c₀)
    (hformat : format = .typeScript ∨ format = .javaScript)
    (hnone : ∀ out path, ¬ doc.HasArtifact c₀.root format out path)
    (hnext : Delivery.Stage.next doc format c₀ .ready = (c₀, .ended result)) :
    (ofDocuments c₀ format 1 [doc]).onward.IsLone c₀ doc format (.ended result) := by
  have hlone : (ofDocuments c₀ format 1 [doc]).IsLone c₀ doc format .ready :=
    isLone_ofDocuments (h.fresh.steady (isFreeBelow_of_isLinkFree h.linkFree c₀.root)) h.fresh.jobs
      hformat
  obtain ⟨stage, hturn, hlone'⟩ := hlone.exists_onward fun _ _ _ hwaits => by cases hwaits
  rwa [turn_of_no_artifact hnone hnext (Or.inl rfl) hturn] at hlone'

/-- However the export of a document among others has ended, it ends so in the lone session, with the
same content at the path of the artifact. -/
theorem exists_onward_over (h : IsOrdinary c₀)
    (hformat : format = .typeScript ∨ format = .javaScript) {docs : List Document}
    (hapart : Document.AreApart c₀.root format docs) (limit : Nat) {moves : List Move}
    (horderly : ∀ m ∈ moves, m.isOrderly) (hdoc : docs[i]? = some doc)
    (hd : ((ofDocuments c₀ format limit docs).playAll moves).deliveries[i]? = some d)
    (hresult : d.result? = some result) :
    ∃ n, (onward^[n] (ofDocuments c₀ format 1 [doc])).IsLone c₀ doc format (.ended result) ∧
      ∀ out path, doc.HasArtifact c₀.root format out path →
        (onward^[n] (ofDocuments c₀ format 1 [doc])).cache.disk.content? path =
          ((ofDocuments c₀ format limit docs).playAll moves).cache.disk.content? path := by
  have hs := isSteady_ofDocuments h.fresh h.linkFree hformat limit docs
  have horder : (docs.map fun doc => (doc, format))[i]? = some (doc, format) := by
    simp [hdoc]
  have hready : (ofDocuments c₀ format limit docs).deliveries[i]? =
      some { exporter := { doc := some doc, format } } := by
    simp [ofDocuments, hdoc]
  have hstage := Delivery.stage_of_result? hresult
  by_cases hartifact : ∃ out path, doc.HasArtifact c₀.root format out path
  · -- The artifact lies by names below a site that is there from the beginning, so it makes no
    -- difference which directories have been made for others.
    obtain ⟨out, path, hartifact⟩ := hartifact
    obtain ⟨base, top, names, hsite, hplain, hroot⟩ := exists_site h.linkFree h.tree h.grounded
    obtain ⟨dir, name, hlasting⟩ := hartifact.exists_isLasting hformat
    rw [hroot] at hlasting
    have hpath := hlasting.join hplain
    obtain ⟨d', n, hd', hmirrors⟩ := exists_mirrors
      (mirrors_ofDocuments h.fresh hformat hsite (names ++ dir) name) hs (.refl c₀) h.impartial hroot
      hplain hpath hready horder hartifact
      (fun j order out' path' hji hj hartifact' => by
        simp only [List.getElem?_map, Option.map_eq_some_iff] at hj
        obtain ⟨doc', hdoc', rfl⟩ := hj
        exact hapart.isApart (Ne.symm hji) hdoc hdoc' hartifact hartifact') horderly
    cases hd.symm.trans hd'
    obtain ⟨stage', hlone, halike⟩ := hmirrors.alike
    rw [hstage] at halike
    cases halike with
    | before _ early => cases early
    | after =>
      refine ⟨n, hlone, fun out' path' hartifact' => ?_⟩
      obtain ⟨-, rfl⟩ := hartifact.unique hartifact'
      exact hmirrors.twin.content? hpath
  · have hnone : ∀ out path, ¬ doc.HasArtifact c₀.root format out path :=
      fun out path hhas => hartifact ⟨out, path, hhas⟩
    obtain ⟨result', hnext⟩ := exists_next_of_no_artifact c₀ doc format hnone
    obtain ⟨d', hd', hstage'⟩ := ready_or_over_of_no_artifact hs (.refl c₀) horder hready hnone hnext
      (Or.inl rfl) horderly
    cases hd.symm.trans hd'
    rw [hstage] at hstage'
    obtain hready' | hover := hstage'
    · cases hready'
    · cases hover
      exact ⟨1, isLone_onward_of_no_artifact h hformat hnone (hnext c₀ rfl),
        fun out path hhas => absurd hhas (hnone out path)⟩

/-- A delivery has ended with a failure, as a test. -/
def failedAt (s : Session) (i : Nat) : Bool :=
  match s.deliveries[i]?.bind Delivery.result? with
  | some (.error _) => true
  | _ => false

/-- A delivery has ended by finding its artifact, as a test. -/
def foundAt (s : Session) (i : Nat) : Bool :=
  match s.deliveries[i]?.bind Delivery.result? with
  | some (.ok .cached) => true
  | _ => false

theorem exists_of_foundAt {i : Nat} (h : s.foundAt i) :
    ∃ d, s.deliveries[i]? = some d ∧ d.result? = some (.ok .cached) := by
  unfold foundAt at h
  split at h
  · rename_i hresult
    exact Option.bind_eq_some_iff.1 hresult
  · cases h

/-- The export of a document on its own can end in this way, with this cache. -/
def EndsAlone (c : Cache) (format : Format) (doc : Document)
    (result : Except Failure ExportStatus) (c' : Cache) : Prop :=
  ∃ (limit : Nat) (moves : List Move) (d : Delivery), (∀ m ∈ moves, m.isOrderly) ∧
    ((ofDocuments c format limit [doc]).playAll moves).deliveries[0]? = some d ∧
    d.result? = some result ∧ ((ofDocuments c format limit [doc]).playAll moves).cache = c'

/-- Exports do not affect each other. Documents whose artifacts keep apart are exported together, in
any order of steps. However the export of one of them has ended, on its own it can end, and whenever
it does, then in the same way and with the same content at the path of its artifact. At a place that
neither belongs to an artifact nor to the temporary file of one, there is a file after all this if and
only if there was one before, with the same content. -/
theorem export_alone {c : Cache} (h : IsOrdinary c)
    (hformat : format = .typeScript ∨ format = .javaScript) {docs : List Document}
    (hapart : Document.AreApart c.root format docs) (limit : Nat) {moves : List Move}
    (horderly : ∀ m ∈ moves, m.isOrderly) :
    (∀ (i : Nat) (doc : Document) (d : Delivery) (result : Except Failure ExportStatus),
      docs[i]? = some doc →
      ((ofDocuments c format limit docs).playAll moves).deliveries[i]? = some d →
      d.result? = some result →
      (∃ c', EndsAlone c format doc result c') ∧
      ∀ result' c', EndsAlone c format doc result' c' → result' = result ∧
        ∀ out path, doc.HasArtifact c.root format out path → c'.disk.content? path =
          ((ofDocuments c format limit docs).playAll moves).cache.disk.content? path) ∧
    ∀ place : List String,
      (∀ doc ∈ docs, ∀ out path, doc.HasArtifact c.root format out path →
        ((ofDocuments c format limit docs).playAll moves).cache.disk.locate .itself path ≠
          .ok place ∧
        ((ofDocuments c format limit docs).playAll moves).cache.disk.locate .itself
          (temporary path) ≠ .ok place) →
      ∀ x, ((ofDocuments c format limit docs).playAll moves).cache.disk.get? place =
          some (.file x) ↔ c.disk.get? place = some (.file x) := by
  -- On its own the export ends as the lone session does, so two ways to end on its own are the same
  -- way. Here is one, and then any other is compared.
  constructor
  · intro i doc d result hdoc hd hresult
    obtain ⟨n, hlone, hcontent⟩ :=
      exists_onward_over h hformat hapart limit horderly hdoc hd hresult
    constructor
    · obtain ⟨alone, halone, hplay⟩ := exists_moves_of_onward (ofDocuments c format 1 [doc]) n
      obtain ⟨e, he, hstage⟩ := hlone.delivery
      refine ⟨_, 1, alone, e, halone, ?_, ?_, rfl⟩
      · rw [hplay, he]
        rfl
      · rw [Delivery.result?, hstage]
    · rintro result' c' ⟨limit', alone, e, halone, he, hresult', rfl⟩
      have hsingle := Document.areApart_singleton c.root format doc
      obtain ⟨n', hlone', hcontent'⟩ :=
        exists_onward_over h hformat hsingle limit' halone rfl he hresult'
      obtain ⟨hsame, hcache⟩ := hlone.over_unique hlone'
      refine ⟨hsame, fun out path hartifact => ?_⟩
      rw [← hcontent' out path hartifact, ← hcontent out path hartifact, hcache]
  · intro place hfree x
    -- What no write has taken has only got directories, and there no file comes or goes.
    have hs := isSteady_ofDocuments h.fresh h.linkFree hformat limit docs
    rcases (ahead_or_isTaken hs horderly place).2 with hahead | ⟨order, horder, out, path, hhas, htaken⟩
    · exact Disk.Ahead.file_iff hahead x
    · obtain ⟨doc, hdoc, rfl⟩ := List.mem_map.1 horder
      obtain ⟨hartifact, htemporary⟩ := hfree doc hdoc out path hhas
      rcases htaken with hplace | hplace
      · exact absurd hplace hartifact
      · exact absurd hplace htemporary

theorem endsAlone_of_wroteAt {c : Cache} {limit : Nat} {moves : List Move}
    (horderly : ∀ m ∈ moves, m.isOrderly)
    (h : ((ofDocuments c format limit [doc]).playAll moves).wroteAt 0) :
    ∃ c', EndsAlone c format doc (.ok .written) c' := by
  obtain ⟨d, hd, hresult⟩ := exists_of_wroteAt h
  exact ⟨_, limit, moves, d, horderly, hd, hresult, rfl⟩

/-- A document fails beside another, whose artifact is written, as it is on its own. -/
theorem export_alone_beside_failure : ∃ (c : Cache) (a b : Document) (moves : List Move),
    IsOrdinary c ∧ Document.AreApart c.root .typeScript [a, b] ∧ (∀ m ∈ moves, m.isOrderly) ∧
      ((ofDocuments c .typeScript 2 [a, b]).playAll moves).failedAt 0 ∧
      ((ofDocuments c .typeScript 2 [a, b]).playAll moves).wroteAt 1 ∧
      ∃ c', EndsAlone c .typeScript b (.ok .written) c' := by
  let c : Cache :=
    { root := { parts := ["c"] }
      faults := fun _ path moment =>
        if path.name = "a.d.ts" && moment = .beginning then
          some { incident := ⟨"ValueError", false, "no"⟩ }
        else none
      draws := fun _ => .real (.finite false 0) }
  let a : Document := { name := .string "a" }
  let b : Document := { name := .string "b" }
  let moves : List Move := [.start, .start, .proceed 0, .proceed 1, .proceed 0, .proceed 1, .write 1,
    .write 0, .write 1, .settle 0, .proceed 0, .write 1, .write 1, .write 1, .settle 1, .proceed 1]
  have hordinary : IsOrdinary c := by
    refine ⟨⟨rfl, rfl, rfl, rfl⟩, isLinkFree_of_entries (by simp [c]), isTree_of_entries (by simp [c]),
      AbsolutePath.isGrounded_of_isPlain ?_ _, ⟨fun _ _ _ _ => rfl, fun _ => ⟨_, rfl⟩⟩⟩
    intro part hpart
    obtain rfl : part = "c" := List.mem_singleton.1 hpart
    exact ⟨by decide, by decide, by decide⟩
  have hapart : Document.AreApart c.root .typeScript [a, b] := by decide +kernel
  have horderly : ∀ m ∈ moves, m.isOrderly := by decide
  have hfailed : ((ofDocuments c .typeScript 2 [a, b]).playAll moves).failedAt 0 := by decide +kernel
  have hwrote : ((ofDocuments c .typeScript 2 [a, b]).playAll moves).wroteAt 1 := by decide +kernel
  obtain ⟨d, hd, hresult⟩ := exists_of_wroteAt hwrote
  have halone := ((export_alone hordinary (Or.inl rfl) hapart 2 horderly).1 1 b d _ rfl hd hresult).1
  exact ⟨c, a, b, moves, hordinary, hapart, horderly, hfailed, hwrote, halone⟩

/-- A root that goes up from a directory that is not there makes a difference: the first write makes
the directory, and with it whoever comes later finds what nobody found before. -/
theorem not_export_alone_of_not_grounded : ¬ ∀ (c : Cache) (docs : List Document) (limit : Nat)
    (moves : List Move), c.IsFresh → IsLinkFree c.disk [] → IsTree c.disk → c.IsImpartial →
    Document.AreApart c.root .typeScript docs → (∀ m ∈ moves, m.isOrderly) →
    ∀ (i : Nat) (doc : Document) (d : Delivery) (result result' : Except Failure ExportStatus)
      (c' : Cache), docs[i]? = some doc →
      ((ofDocuments c .typeScript limit docs).playAll moves).deliveries[i]? = some d →
      d.result? = some result → EndsAlone c .typeScript doc result' c' → result' = result := by
  intro h
  let c : Cache :=
    { root := { parts := ["new", "..", "out"] }
      disk := { entries := [(["out"], .directory), (["out", "b.d.ts"], .file "old")] }
      draws := fun _ => .real (.finite false 0) }
  let a : Document := { name := .string "a" }
  let b : Document := { name := .string "b" }
  let moves : List Move := [.start, .proceed 0, .proceed 0, .write 0, .write 0, .write 0, .write 0,
    .write 0, .settle 0, .proceed 0, .start, .proceed 1, .proceed 1]
  let alone : List Move := [.start, .proceed 0, .proceed 0, .write 0, .write 0, .write 0, .write 0,
    .write 0, .settle 0, .proceed 0]
  have hfree : IsLinkFree c.disk [] := isLinkFree_of_entries (by simp [c])
  have htree : IsTree c.disk := isTree_of_entries (by decide)
  have himpartial : c.IsImpartial := ⟨fun _ _ _ _ => rfl, fun _ => ⟨_, rfl⟩⟩
  have hapart : Document.AreApart c.root .typeScript [a, b] := by decide +kernel
  have hfound : ((ofDocuments c .typeScript 1 [a, b]).playAll moves).foundAt 1 := by decide +kernel
  have hwrote : ((ofDocuments c .typeScript 1 [b]).playAll alone).wroteAt 0 := by decide +kernel
  obtain ⟨d, hd, hresult⟩ := exists_of_foundAt hfound
  obtain ⟨c', halone⟩ := endsAlone_of_wroteAt (by decide) hwrote
  have hsame := h c [a, b] 1 moves ⟨rfl, rfl, rfl, rfl⟩ hfree htree himpartial hapart (by decide) 1 b d _
    _ c' rfl hd hresult halone
  cases hsame

end Session
end SchemaArtifacts
