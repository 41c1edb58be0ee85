import Mathlib.Logic.Relation
import SchemaArtifacts.Proofs.Session.Steady

/-!
# Artifacts last

A cache is used again and again: documents are exported, in any order of steps, the cache is cleaned,
and it is replaced by a fresh one on the same root that knows nothing of before. Once an export has
ended with its artifact written, the artifact stays as it is through all of this, and every later
export of a document of that name in that format finds it.

## Main definitions

* `Session.Deed` — what can be done with a cache, one step at a time
* `Session.Finds` — how far a delivery can be that finds its artifact

## Main results

* `Session.steady_of_deeds` — the files of the writes stay there
* `Session.Endures.deeds` — a file that endures goes on to endure
* `Session.written_endures` — an artifact that was written stays, and later exports find it
-/

namespace SchemaArtifacts

open Cache Disk Relation

namespace Session

/-- A session that is to export documents, each in a format. -/
def ofOrders (cache : Cache) (limit : Nat) (orders : List (Document × Format)) : Session :=
  { cache, limit
    deliveries := orders.map fun order =>
      { exporter := { doc := some order.1, format := order.2 } } }

/-- What can be done with a cache, one step at a time. Exports end before anything else is done. -/
inductive Deed (s : Session) : Session → Prop where
  /-- An export, a write or the cache goes on. -/
  | move (m : Move) (orderly : m.isOrderly) : Deed s (s.play m)
  /-- Some documents are to be exported together, or one alone. -/
  | order (idle : s.IsIdle) (limit : Nat) (orders : List (Document × Format))
      (known : AreKnown orders) : Deed s (ofOrders s.cache limit orders)
  | clean (idle : s.IsIdle) (walk : Sweep.Walk) (stuck : String → Bool) :
      Deed s { s with cache := ((Cache.clean walk stuck).run s.cache).2 }
  /-- A fresh cache takes the place of the old one. -/
  | renew (idle : s.IsIdle) (backoff : Backoff) : Deed s { cache := { s.cache.renew with backoff } }
  /-- The world has other faults and other chances in store. -/
  | world (faults : List AbsolutePath → AbsolutePath → Moment → Option Interruption)
      (draws : Nat → Number) :
      Deed s { s with cache := { s.cache with faults, draws } }

/-- What holds of a session between all deeds. -/
structure IsSteady (s : Session) (orders : List (Document × Format)) : Prop where
  runs : s.Runs orders
  known : AreKnown orders
  held : IsHeld s.cache s.deliveries
  steady : s.cache.Steady

variable {s t : Session} {orders : List (Document × Format)} {path : AbsolutePath}
  {dir : List String} {name x : String}

theorem isSteady_ofOrders {c : Cache} (h : c.Steady)
    (hended : ∀ job ∈ c.jobs, job.stage.inFlight = false) (limit : Nat)
    {orders : List (Document × Format)} (hknown : AreKnown orders) :
    (ofOrders c limit orders).IsSteady orders := by
  refine ⟨⟨h.balanced, by simp [ofOrders], ?_, ?_⟩, hknown, ?_, h⟩
  · intro i d order hi ho
    simp only [ofOrders, List.getElem?_map, Option.map_eq_some_iff] at hi
    obtain ⟨order', ho', rfl⟩ := hi
    cases ho.symm.trans ho'
    exact ⟨⟨rfl, by simp⟩, rfl⟩
  · intro i d order hi ho
    simp only [ofOrders, List.getElem?_map, Option.map_eq_some_iff] at hi
    obtain ⟨order', -, rfl⟩ := hi
    exact .ready
  · intro id job hj hf
    rw [hended job (List.mem_of_getElem? hj)] at hf
    cases hf

/-- Documents are brought to a cache in which no write is on its way. -/
theorem isSteady_ofDocuments_of_ended {c : Cache} (h : c.Steady)
    (hended : ∀ job ∈ c.jobs, job.stage.inFlight = false) {format : Format}
    (hformat : format = .typeScript ∨ format = .javaScript) (limit : Nat) (docs : List Document) :
    (ofDocuments c format limit docs).IsSteady (docs.map fun doc => (doc, format)) := by
  have horders : ofDocuments c format limit docs =
      ofOrders c limit (docs.map fun doc => (doc, format)) := by
    simp only [ofDocuments, ofOrders, List.map_map, Function.comp_def]
  rw [horders]
  refine isSteady_ofOrders h hended limit fun order horder => ?_
  obtain ⟨doc, -, rfl⟩ := List.mem_map.1 horder
  exact hformat

theorem IsSteady.move (h : s.IsSteady orders) {m : Move} (hm : m.isOrderly) :
    (s.play m).IsSteady orders := by
  have hturn := turn_play h.runs hm
  exact ⟨h.runs.play m, h.known, h.held.turn hturn, hturn.steady h.known h.steady⟩

theorem isSteady_playAll (h : s.IsSteady orders) {moves : List Move}
    (horderly : ∀ m ∈ moves, m.isOrderly) : (s.playAll moves).IsSteady orders := by
  induction moves generalizing s with
  | nil => exact h
  | cons m moves ih =>
    obtain ⟨hm, hrest⟩ := List.forall_mem_cons.1 horderly
    exact ih (h.move hm) hrest

/-- When all exports have ended, a sweep takes no file of a write. -/
theorem steady_clean (h : s.cache.Steady) (hheld : IsHeld s.cache s.deliveries) (hidle : s.IsIdle)
    (walk : Sweep.Walk) (stuck : String → Bool) : ((clean walk stuck).run s.cache).2.Steady := by
  have hswept := swept_sweep h.free walk stuck
  refine ⟨h.balanced.of_kept rfl rfl rfl rfl, h.free.keeps hswept.keeps, h.lasting, h.full, ?_, ?_⟩
  · intro id job n hj hs
    have hended := hheld.inFlight_eq_false hidle (List.mem_of_getElem? hj)
    rw [hs] at hended
    cases hended
  · intro id job hj hd
    obtain ⟨dir, name, hpath⟩ := h.lasting id job hj
    exact hswept.content _ dir name _ hpath (h.full id job hj) (h.done id job hj hd)

/-- Only the disk has changed in a cache: what its deliveries have settled is still right. -/
theorem Runs.of_cache {c : Cache} (h : s.Runs orders) (hb : c.Balanced)
    (hroot : c.root = s.cache.root) (hjobs : c.jobs = s.cache.jobs) :
    Runs { s with cache := c } orders := by
  refine ⟨hb, h.length, ?_, ?_⟩
  · intro i d order hi ho
    show d.Brings c.root order.1 order.2
    rw [hroot]
    exact h.brings i d order hi ho
  · intro i d order hi ho
    show d.stage.IsSound c order.1 order.2
    have hsound := h.sound i d order hi ho
    generalize d.stage = stage at hsound
    cases hsound with
    | ready => exact .ready
    | looking out path artifact => exact .looking out path (by rwa [hroot])
    | answered out present path artifact => exact .answered out present path (by rwa [hroot])
    | waiting out content id job artifact text there =>
      exact .waiting out content id job (by rwa [hroot]) (by rwa [hroot]) (by rwa [hjobs])
    | written out content id job artifact text there done =>
      exact .written out content id job (by rwa [hroot]) (by rwa [hroot]) (by rwa [hjobs]) done
    | ended result other => exact .ended result other

theorem IsSteady.deed (h : s.IsSteady orders) (hdeed : s.Deed t) :
    ∃ orders', t.IsSteady orders' := by
  cases hdeed with
  | move m orderly => exact ⟨orders, h.move orderly⟩
  | order idle limit orders' known =>
    exact ⟨orders', isSteady_ofOrders h.steady (fun job => h.held.inFlight_eq_false idle) limit known⟩
  | clean idle walk stuck =>
    have hsteady := steady_clean h.steady h.held idle walk stuck
    exact ⟨orders, h.runs.of_cache hsteady.balanced rfl rfl, h.known, h.held, hsteady⟩
  | renew idle backoff =>
    have hfresh : IsFresh { s.cache.renew with backoff } := ⟨rfl, rfl, rfl, rfl⟩
    refine ⟨[], ?_⟩
    show (ofOrders { s.cache.renew with backoff } 20 []).IsSteady []
    exact isSteady_ofOrders (hfresh.steady h.steady.free) (by simp [Cache.renew]) 20
      (by simp [AreKnown])
  | world faults draws =>
    have hbalanced : Balanced { s.cache with faults, draws } :=
      h.steady.balanced.of_kept rfl rfl rfl rfl
    refine ⟨orders, h.runs.of_cache hbalanced rfl rfl, h.known, h.held, hbalanced, h.steady.free,
      h.steady.lasting, h.steady.full, h.steady.placing, h.steady.done⟩

/-- The files of the writes stay there, whatever is done. -/
theorem steady_of_deeds (h : s.IsSteady orders) (hdeeds : ReflTransGen Deed s t) :
    ∃ orders', t.IsSteady orders' := by
  induction hdeeds with
  | refl => exact ⟨orders, h⟩
  | tail _ hdeed ih =>
    obtain ⟨orders', ih⟩ := ih
    exact ih.deed hdeed

theorem root_of_deed (h : s.Deed t) : t.cache.root = s.cache.root := by
  cases h with
  | move m orderly => exact (operation_play s m).sameWorld.root
  | _ => rfl

/-- A file that endures goes on to endure, whatever is done. -/
theorem Endures.deed (h : Endures s.cache s.deliveries path x) (hs : s.IsSteady orders)
    (hpath : s.cache.root.IsLasting path dir name) (hx : x ≠ "") (hdeed : s.Deed t) :
    Endures t.cache t.deliveries path x := by
  cases hdeed with
  | move m orderly => exact h.turn hs.steady hpath (turn_play hs.runs orderly)
  | order idle limit orders' known =>
    refine ⟨h.content, h.safe.imp_right fun hnone => ⟨hnone.1, fun d hd out hmissed => ?_⟩⟩
    obtain ⟨order, -, rfl⟩ := List.mem_map.1 hd
    cases hmissed
  | clean idle walk stuck =>
    exact ⟨(swept_sweep hs.steady.free walk stuck).content path dir name x hpath hx h.content, h.safe⟩
  | renew idle backoff => exact ⟨h.content, Or.inr ⟨by simp [Cache.renew], by simp⟩⟩
  | world faults draws => exact ⟨h.content, h.safe⟩

theorem root_of_deeds (h : ReflTransGen Deed s t) : t.cache.root = s.cache.root := by
  induction h with
  | refl => rfl
  | tail _ hdeed ih => exact (root_of_deed hdeed).trans ih

theorem Endures.deeds (h : Endures s.cache s.deliveries path x) (hs : s.IsSteady orders)
    (hpath : s.cache.root.IsLasting path dir name) (hx : x ≠ "")
    (hdeeds : ReflTransGen Deed s t) :
    Endures t.cache t.deliveries path x := by
  induction hdeeds with
  | refl => exact h
  | tail hbefore hdeed ih =>
    obtain ⟨orders', hsteady⟩ := steady_of_deeds hs hbefore
    exact ih.deed hsteady (by rwa [root_of_deeds hbefore]) hx hdeed

/-- How far a delivery can be that finds its artifact. -/
inductive Finds (out : String) (path : AbsolutePath) : Delivery.Stage → Prop where
  | ready : Finds out path .ready
  | looking : Finds out path (.looking out path)
  | answered : Finds out path (.answered out true)
  | ended : Finds out path (.ended (.ok .cached))

/-- A delivery whose artifact endures goes on to find it. -/
theorem Finds.step {c c' : Cache} {deliveries : List Delivery} {doc : Document} {format : Format}
    {out : String} {stage stage' : Delivery.Stage} (h : Finds out path stage)
    (hartifact : doc.HasArtifact c.root format out path) (hends : Endures c deliveries path x)
    (hturn : Delivery.Stage.Turn c doc format stage c' stage') : Finds out path stage' := by
  cases h with
  | ready =>
    cases hturn with
    | refused result other none always => exact absurd hartifact (none out path)
    | known => exact .ended
    | looks out' path' artifact unknown =>
      obtain ⟨rfl, rfl⟩ := hartifact.unique artifact
      exact .looking
  | looking =>
    cases hturn with
    | answers =>
      rw [hends.exists_]
      exact .answered
  | answered =>
    cases hturn with
    | present => exact .ended
  | ended =>
    cases hturn with
    | rests => exact .ended

/-- A delivery that has not begun when its artifact endures ends by finding it, if it ends. -/
theorem Endures.finds (h : Endures s.cache s.deliveries path x) (hs : s.IsSteady orders)
    (hpath : s.cache.root.IsLasting path dir name) {j : Nat} {order : Document × Format}
    (horder : orders[j]? = some order) {out : String}
    (hartifact : order.1.HasArtifact s.cache.root order.2 out path) {d : Delivery}
    (hd : s.deliveries[j]? = some d) (hfinds : Finds out path d.stage) {moves : List Move}
    (horderly : ∀ m ∈ moves, m.isOrderly) :
    ∃ d', (s.playAll moves).deliveries[j]? = some d' ∧ Finds out path d'.stage := by
  -- The artifact endures each turn, and its root stays, so the rest of the moves starts from the
  -- same promise.
  induction moves generalizing s d with
  | nil => exact ⟨d, hd, hfinds⟩
  | cons m moves ih =>
    have hm := horderly m (by simp)
    have hturn := turn_play hs.runs hm
    have hroot := (operation_play s m).sameWorld.root
    obtain ⟨d', hd', hfinds'⟩ : ∃ d', (s.play m).deliveries[j]? = some d' ∧
        Finds out path d'.stage := by
      generalize (s.play m).cache = c' at hturn
      generalize (s.play m).deliveries = deliveries' at hturn ⊢
      cases hturn with
      | step i e e' order' c' there ordered turn =>
        obtain ⟨d', hd', ⟨rfl, rfl⟩ | ⟨-, rfl⟩⟩ := exists_getElem?_set hd i e'
        · cases hd.symm.trans there
          cases horder.symm.trans ordered
          exact ⟨_, hd', hfinds.step hartifact h turn⟩
        · exact ⟨_, hd', hfinds⟩
      | _ => exact ⟨d, hd, hfinds⟩
    exact ih (h.turn hs.steady hpath hturn) (hs.move hm) (by rwa [hroot]) (by rwa [hroot]) hd'
      hfinds' fun m hm => horderly m (by simp [hm])

end Session

/-- An export of a document whose artifact is there finds it and changes nothing. -/
theorem Cache.run_exportOne_of_present {c : Cache} {doc : Document} {format : Format} {out : String}
    {path : AbsolutePath} (h : doc.HasArtifact c.root format out path) (hp : c.isPresent path) :
    (shelf.exportOne format (some doc)).run c = (.ok .cached, c) := by
  have hfor : Exporter.StandsFor { doc := some doc, format } c.root doc := ⟨rfl, by simp⟩
  obtain ⟨e, hrun, -⟩ := Exporter.run_start hfor
  have hcached : (shelf.isCached out).run c = (.ok (some true), c) := by
    simp only [shelf, Act.run_bind, Act.run_get, isCached, Cache.locate, h.path, hp,
      Act.run_ofExcept_ok]
  have hprepare : (Exporter.prepare shelf).run (c, { doc := some doc, format }) =
      (.ok .cached, (c, e)) := by
    rw [Exporter.prepare, Act.run_bind, hrun, h.start]
    simp only [Except.map, Act.run_bind, Exporter.onShelf, Act.run_onPart, hcached, Exporter.finish,
      Act.run_pure]
  unfold Shelf.exportOne
  rw [ExceptT.run_mk]
  rw [hprepare]

namespace Session

/-- Artifacts last. Whatever was done with a cache before, and whatever is done with it afterwards:
once an export has ended with its artifact written, the file at its path is there in every later
state with the same content, and every later export of a document of that name in that format, alone
or together with others, ends by finding it. -/
theorem written_endures {c : Cache} (fresh : c.IsFresh) (hfree : IsFreeBelow c.disk c.root)
    {s t : Session} (hs : ReflTransGen Deed { cache := c } s) (ht : ReflTransGen Deed s t)
    {d : Delivery} (hd : d ∈ s.deliveries) (hwritten : d.result? = some (.ok .written)) :
    ∃ doc out path content, d.exporter.doc = some doc ∧
      doc.HasArtifact c.root d.exporter.format out path ∧
      s.cache.disk.content? path = some content ∧ t.cache.disk.content? path = some content ∧
      (∀ doc' : Document, doc'.name = doc.name →
        (Cache.shelf.exportOne d.exporter.format (some doc')).run t.cache = (.ok .cached, t.cache)) ∧
      ∀ (j : Nat) (d' : Delivery) (doc' : Document), t.deliveries[j]? = some d' →
        d'.exporter.doc = some doc' → doc'.name = doc.name →
        d'.exporter.format = d.exporter.format → d'.stage = .ready →
        ∀ moves : List Move, (∀ m ∈ moves, m.isOrderly) →
        ∀ (d'' : Delivery) (result : Except Failure ExportStatus),
          (t.playAll moves).deliveries[j]? = some d'' → d''.result? = some result →
          result = .ok .cached := by
  have hempty : (ofOrders c 20 []).IsSteady [] :=
    isSteady_ofOrders (fresh.steady hfree) (by simp [fresh.jobs]) 20 (by simp [AreKnown])
  obtain ⟨orders, hsteady⟩ := steady_of_deeds hempty hs
  have hroot : s.cache.root = c.root := root_of_deeds hs
  obtain ⟨i, hi⟩ := List.getElem?_of_mem hd
  obtain ⟨order, horder⟩ := hsteady.runs.exists_order hi
  have hbrings := hsteady.runs.brings i d order hi horder
  have hsound := hsteady.runs.sound i d order hi horder
  have hstage : d.stage = .ended (.ok .written) := Delivery.stage_of_result? hwritten
  rw [hstage] at hsound
  cases hsound with
  | ended _ other => exact absurd rfl other
  | written out content id job artifact text there done =>
    obtain ⟨dir, name, hpath⟩ := hsteady.steady.lasting id job there
    have hends : Endures s.cache s.deliveries job.path job.content :=
      ⟨hsteady.steady.done id job there done, Or.inl ⟨id, job, there, rfl, done⟩⟩
    have hends' := hends.deeds hsteady hpath (hsteady.steady.full id job there) ht
    have hroot' := root_of_deeds ht
    obtain ⟨orders', hsteady'⟩ := steady_of_deeds hsteady ht
    have hsame : ∀ doc' : Document, doc'.name = order.1.name →
        doc'.HasArtifact t.cache.root order.2 out job.path := by
      intro doc' hname
      rw [hroot']
      exact artifact.of_name_eq hname
    refine ⟨order.1, out, job.path, job.content, hbrings.standsFor.doc, ?_, hends.content,
      hends'.content, ?_, ?_⟩
    · rw [hbrings.format, ← hroot]
      exact artifact
    · intro doc' hname
      rw [hbrings.format]
      apply run_exportOne_of_present (hsame doc' hname)
      rw [isPresent, hends'.exists_, Bool.or_true]
    · intro j d' doc' hd' hdoc hname hformat hready moves horderly d'' result hd'' hresult
      obtain ⟨order', horder'⟩ := hsteady'.runs.exists_order hd'
      have hbrings' := hsteady'.runs.brings j d' order' hd' horder'
      have hartifact : order'.1.HasArtifact t.cache.root order'.2 out job.path := by
        cases hbrings'.standsFor.doc.symm.trans hdoc
        rw [← hbrings'.format, hformat, hbrings.format]
        exact hsame order'.1 hname
      have hfinds : Finds out job.path d'.stage := by
        rw [hready]
        exact .ready
      obtain ⟨e, he, hfinds'⟩ :=
        hends'.finds hsteady' (by rwa [hroot']) horder' hartifact hd' hfinds horderly
      cases he.symm.trans hd''
      rw [Delivery.stage_of_result? hresult] at hfinds'
      cases hfinds'
      rfl

theorem deeds_playAll (s : Session) {moves : List Move} (h : ∀ m ∈ moves, m.isOrderly) :
    ReflTransGen Deed s (s.playAll moves) := by
  induction moves generalizing s with
  | nil => exact .refl
  | cons m moves ih =>
    exact .head (.move m (h m (by simp))) (ih (s.play m) fun m hm => h m (by simp [hm]))

theorem isIdle_of_all {s : Session} (h : s.deliveries.all fun d => d.result?.isSome) :
    s.IsIdle := by
  intro d hd
  obtain ⟨result, hresult⟩ := Option.isSome_iff_exists.1 (List.all_eq_true.1 h d hd)
  exact ⟨result, Delivery.stage_of_result? hresult⟩

/-- A document is exported, the cache is cleaned and replaced: the artifact is still there, and an
export of the document finds it. -/
theorem written_endures_renewed : ∃ (s t : Session) (doc : Document) (format : Format)
    (path : AbsolutePath) (content : String), s.wroteAt 0 ∧ t.cache.jobs = [] ∧
      s.cache.disk.content? path = some content ∧ t.cache.disk.content? path = some content ∧
      (Cache.shelf.exportOne format (some doc)).run t.cache = (.ok .cached, t.cache) := by
  let c : Cache := { root := { parts := ["c"] } }
  let doc : Document := { name := .string "a" }
  let moves : List Move := [.start, .proceed 0, .proceed 0, .write 0, .write 0, .write 0, .write 0,
    .write 0, .settle 0, .proceed 0]
  have hfree : IsFreeBelow c.disk c.root :=
    isFreeBelow_of_isLinkFree (by simp [IsLinkFree, c, Disk.get?, Disk.find?]) c.root
  have hwrote : ((ofOrders c 1 [(doc, .typeScript)]).playAll moves).wroteAt 0 := by decide +kernel
  have hidle : ((ofOrders c 1 [(doc, .typeScript)]).playAll moves).IsIdle :=
    isIdle_of_all (by decide +kernel)
  have hs : ReflTransGen Deed { cache := c } ((ofOrders c 1 [(doc, .typeScript)]).playAll moves) :=
    .head (.order (by simp [IsIdle]) 1 _ (by simp [AreKnown])) (deeds_playAll _ (by decide))
  generalize (ofOrders c 1 [(doc, .typeScript)]).playAll moves = s at hwrote hidle hs
  let cleaned : Session := { s with cache := ((clean .byName fun _ => false).run s.cache).2 }
  have hclean : Deed s cleaned := .clean hidle .byName fun _ => false
  have hidle' : cleaned.IsIdle := hidle
  obtain ⟨d, hd, hresult⟩ := exists_of_wroteAt hwrote
  obtain ⟨doc', out, path, content, hdoc, -, hbefore, hafter, hlater, -⟩ :=
    written_endures ⟨rfl, rfl, rfl, rfl⟩ hfree hs (.tail (.single hclean) (.renew hidle' {}))
      (List.mem_of_getElem? hd) hresult
  exact ⟨s, _, doc', _, path, content, hwrote, rfl, hbefore, hafter, hlater doc' rfl⟩

end Session
end SchemaArtifacts
