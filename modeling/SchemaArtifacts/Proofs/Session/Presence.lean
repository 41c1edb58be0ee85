import SchemaArtifacts.Proofs.Session.Stored

/-!
# What a cache says is there

A cache says that an artifact is there if it remembers to have written it, or if the disk has something
at its path. Where there are no links, something is a file or a directory. And what the cache remembers
is there as well, with the text that was stored, unless it is of the kind that a cleaning takes away: an
empty file, or one with the name of a temporary file.

## Main definitions

* `Cache.HasLost` — a cleaning has taken away the file of a write

## Main results

* `Disk.IsFreeBelow.exists_iff` — what can be at a path within a root
* `Session.tends_of_chores` — a cleaning takes away nothing else
* `Session.isCached_iff` — when a cache says that an artifact is there, and what is there then
-/

namespace SchemaArtifacts

open Cache Disk Relation

namespace Disk

variable {d : Disk} {root path : AbsolutePath}

/-- What is at a path within a root without links is a file or a directory. -/
theorem IsFreeBelow.exists_iff (h : IsFreeBelow d root) (hpath : root.IsWithin path) :
    d.exists_ path ↔ (∃ x, d.content? path = some x) ∨ d.isDirectory path := by
  constructor
  · intro hthere
    obtain ⟨place, e, hlocate, hentry⟩ := Disk.exists_iff.1 hthere
    cases e with
    | file x => exact Or.inl ⟨x, content?_eq_some_iff.2 ⟨place, hlocate, hentry⟩⟩
    | directory => exact Or.inr (isDirectory_iff.2 ⟨place, hlocate, hentry⟩)
    | link target =>
      obtain ⟨top, below, hr, -, rfl⟩ := h.exists_below hpath hlocate
      exact absurd hentry (h.isLinkFree hr _ target (List.prefix_append top below))
  · rintro (⟨x, hx⟩ | hdirectory)
    · exact exists_of_content? hx
    · obtain ⟨place, hlocate, hentry⟩ := isDirectory_iff.1 hdirectory
      exact Disk.exists_iff.2 ⟨place, _, hlocate, hentry⟩

end Disk

namespace Cache

variable {c : Cache} {path : AbsolutePath} {x : String} {lost : Nat → String → Prop}

/-- A path within a root lasts, unless its name is that of a temporary file. -/
theorem isLasting_of_isWithin {root : AbsolutePath} (h : root.IsWithin path)
    (hname : Sweep.isTemporary path.name = false) : ∃ dir name, root.IsLasting path dir name := by
  obtain ⟨dir, name, rfl, hparts⟩ := h.exists_concat
  refine ⟨dir, name, rfl, fun n hn => (hparts n hn).isPlain, ?_⟩
  rwa [AbsolutePath.name, AbsolutePath.parts_join, ← List.append_assoc, List.getLastD_concat] at hname

/-- A cleaning while no write is on its way takes away a file only if it is empty or temporary. -/
theorem Tends.clean (h : c.Tends lost path) (hc : c.IsConfined) (hpath : c.root.IsWithin path)
    (hrest : ∀ job ∈ c.jobs, job.stage.inFlight = false) (walk : Sweep.Walk) (stuck : String → Bool)
    (hlost : ∀ id x, x = "" ∨ Sweep.isTemporary path.name → lost id x) :
    ((Cache.clean walk stuck).run c).2.Tends lost path := by
  constructor
  · intro id job n hj _ hstage
    have hended := hrest job (List.mem_of_getElem? hj)
    rw [hstage] at hended
    cases hended
  · intro id job hj hp hdone
    by_cases hrubbish : job.content = "" ∨ Sweep.isTemporary path.name
    · exact Or.inr (hlost id _ hrubbish)
    · obtain ⟨hne, hname⟩ := not_or.1 hrubbish
      rw [Bool.not_eq_true] at hname
      obtain ⟨dir, name, hlasting⟩ := isLasting_of_isWithin hpath hname
      exact (h.done id job hj hp hdone).imp_left
        ((swept_sweep hc.free walk stuck).content path dir name _ hlasting hne)

/-- The text of a write that is done is not at its path any more, and it is of the kind that a cleaning
takes away. -/
def HasLost (c : Cache) (path : AbsolutePath) : Prop :=
  ∃ job ∈ c.jobs, job.path = path ∧ job.stage.isDone ∧ c.disk.content? path ≠ some job.content ∧
    (job.content = "" ∨ Sweep.isTemporary path.name)

end Cache

namespace Session

variable {s t : Session} {path : AbsolutePath}

theorem exists_later_of_chores (h : ReflTransGen Chore s t) {id : Nat} {job : Job}
    (hj : s.cache.jobs[id]? = some job) :
    ∃ job', t.cache.jobs[id]? = some job' ∧ job.Later job' := by
  induction h with
  | refl => exact ⟨job, hj, .refl job⟩
  | tail _ hchore ih =>
    obtain ⟨job', hj', hlater⟩ := ih
    cases hchore with
    | use t uses =>
      obtain ⟨job'', hj'', hlater'⟩ := uses.operation.books.exists_later hj'
      exact ⟨job'', hj'', hlater.trans hlater'⟩
    | clean => exact ⟨job', hj', hlater⟩

/-- Where a cache is used and kept and all its writes spare a path, the files of the writes of this path
are there, except for those that are empty or temporary. -/
theorem tends_of_chores (h : ReflTransGen Chore s t) (hc : s.cache.IsConfined)
    (hpath : s.cache.root.IsWithin path)
    (hs : s.cache.Tends (fun _ x => x = "" ∨ Sweep.isTemporary path.name) path)
    (hspares : ∀ job ∈ t.cache.jobs, job.path.Spares path) :
    t.cache.Tends (fun _ x => x = "" ∨ Sweep.isTemporary path.name) path := by
  induction h using ReflTransGen.head_induction_on with
  | refl => exact hs
  | @head s s₁ hchore hchores ih =>
    obtain ⟨hc', hroot⟩ := isConfined_of_chores (.single hchore) hc
    refine ih hc' (by rwa [hroot]) ?_
    cases hchore with
    | use s₁ uses =>
      refine hs.operation hc uses.operation hpath fun id job hj _ => ?_
      obtain ⟨job', hj', hlater⟩ := exists_later_of_chores (.head (.use s₁ uses) hchores) hj
      rw [← hlater.path]
      exact hspares job' (List.mem_of_getElem? hj')
    | clean rest walk stuck => exact hs.clean hc hpath rest walk stuck fun _ _ => id

/-- What a cache says is there. On a cache with no links below its root, however it has been used and
kept, and then used again: each name that has a path is answered for, and the answer is that its artifact
is there exactly if a file or a directory is at the path, or the cache has written it. If no write has
its temporary file there, or is of the temporary file beside it, then a path that the cache has written
has a file with the text that was stored, or had lost it before, to a cleaning that found it empty or
with the name of a temporary file. -/
theorem isCached_iff {c : Cache} (fresh : c.IsFresh) (hfree : IsFreeBelow c.disk c.root)
    (hs : ReflTransGen Chore { cache := c } s) (ht : ReflTransGen Use s t) {name : String}
    (hname : c.locate name = .ok path) :
    ∃ answer, t.cache.isCached name = .ok (some answer) ∧
      (answer = true ↔ (∃ x, t.cache.disk.content? path = some x) ∨ t.cache.disk.isDirectory path ∨
        path ∈ t.cache.written) ∧
      (path ∈ t.cache.written → (∀ job ∈ t.cache.jobs, job.path.Spares path) →
        (∃ job ∈ t.cache.jobs, job.path = path ∧ job.stage.isDone ∧
          t.cache.disk.content? path = some job.content) ∨ s.cache.HasLost path) := by
  obtain ⟨hconfined, hroot⟩ := isConfined_of_chores hs (fresh.isConfined hfree)
  have hops := operations_of_uses ht
  obtain ⟨hconfined', hroot'⟩ := isConfined_of_operations hops hconfined
  have hwithin : c.root.IsWithin path := Name.isWithin_of_locate hname
  have hwithin' : s.cache.root.IsWithin path := by rwa [hroot]
  have hlocate : t.cache.locate name = .ok path := by
    rw [Cache.locate, hroot', hroot]
    exact hname
  refine ⟨t.cache.isPresent path, by simp only [isCached, hlocate], ?_, fun hwritten hspares => ?_⟩
  · rw [isPresent, Bool.or_eq_true, isWritten, List.contains_iff_mem,
      hconfined'.free.exists_iff (by rwa [hroot'])]
    tauto
  · -- Up to `s` files are lost only to cleanings, and from then on none.
    have hbegan : c.Tends (fun _ x => x = "" ∨ Sweep.isTemporary path.name) path :=
      fresh.balanced.tends_of_pendingJob? (by simp [pendingJob?, fresh.pending]) _
    have hkept : s.cache.Tends (fun _ x => x = "" ∨ Sweep.isTemporary path.name) path := by
      refine tends_of_chores hs (fresh.isConfined hfree) hwithin hbegan fun job hjob => ?_
      obtain ⟨id, hj⟩ := List.getElem?_of_mem hjob
      obtain ⟨job', hj', hlater⟩ := exists_later_of_operations hops hj
      rw [← hlater.path]
      exact hspares job' (List.mem_of_getElem? hj')
    have hsince : s.cache.Tends (fun _ _ => s.cache.HasLost path) path := by
      refine ⟨hkept.filled, fun id job hj hp hdone => ?_⟩
      by_cases hx : s.cache.disk.content? path = some job.content
      · exact Or.inl hx
      · exact Or.inr ⟨job, List.mem_of_getElem? hj, hp, hdone, hx,
          (hkept.done id job hj hp hdone).resolve_left hx⟩
    obtain ⟨id, job, hj, hp, hdone, -⟩ := (hconfined'.balanced.mem_written path).1 hwritten
    have htends := hsince.operations hops hconfined hwithin' fun id job hj _ =>
      hspares job (List.mem_of_getElem? hj)
    exact (htends.done id job hj hp hdone).imp_left fun hx =>
      ⟨job, List.mem_of_getElem? hj, hp, hdone, hx⟩

/-- An empty text is stored, and a cleaning takes its file away. While another text is being stored, the
cache still says that the first is there. -/
theorem isCached_iff_after_clean : ∃ (c : Cache) (s t : Session) (path : AbsolutePath),
    c.IsFresh ∧ IsFreeBelow c.disk c.root ∧ ReflTransGen Chore { cache := c } s ∧
      ReflTransGen Use s t ∧ c.locate "/a" = .ok path ∧ t.cache.jobs.length = 2 ∧
      t.cache.isCached "/a" = .ok (some true) ∧ t.cache.disk.content? path = none ∧
      t.cache.disk.isDirectory path = false ∧ s.cache.HasLost path := by
  let c : Cache := { root := { parts := ["c"] } }
  let path : AbsolutePath := { parts := ["c", "a"] }
  let first : List Caller := [{ address := .ofUrl "/a" (some false), content := "" }]
  let second : List Caller := [{ address := .ofUrl "/b/d" (some false), content := "x" }]
  let moves : List Move := [.call 0, .write 0, .write 0, .write 0, .write 0, .write 0, .settle 0]
  let later : List Move := [.call 0, .write 1, .write 1]
  let began : Session := { cache := c, callers := first }
  let stored := began.playAll moves
  let s : Session := { stored with cache := ((clean .byName fun _ => false).run stored.cache).2 }
  let others : Session := { s with callers := second }
  let t := others.playAll later
  have hfresh : c.IsFresh := ⟨rfl, rfl, rfl, rfl⟩
  have hfree : IsFreeBelow c.disk c.root :=
    isFreeBelow_of_isLinkFree (isLinkFree_of_entries (by simp [c])) c.root
  have hpath : c.locate "/a" = .ok path := Act.eq_ok_of_toOption (by decide +kernel)
  have hrest : ∀ job ∈ stored.cache.jobs, job.stage.inFlight = false := by decide +kernel
  have hstored : ReflTransGen Use { cache := c } stored :=
    (uses_playAll began moves).head (.users first [] 20 [])
  have hs : ReflTransGen Chore { cache := c } s :=
    (chores_of_uses hstored).tail (.clean hrest .byName fun _ => false)
  have ht : ReflTransGen Use s t := (uses_playAll others later).head (.users second s.deliveries s.limit s.ended)
  have hwritten : path ∈ t.cache.written := by decide +kernel
  have hspares : ∀ job ∈ t.cache.jobs, job.path ≠ temporary path ∧ temporary job.path ≠ path := by
    decide +kernel
  have hnone : t.cache.disk.content? path = none := by decide +kernel
  obtain ⟨answer, hanswer, hiff, hlost⟩ := isCached_iff hfresh hfree hs ht hpath
  obtain rfl := hiff.2 (Or.inr (Or.inr hwritten))
  refine ⟨c, s, t, path, hfresh, hfree, hs, ht, hpath, by decide +kernel, hanswer, hnone,
    by decide +kernel, ?_⟩
  refine (hlost hwritten fun job hjob => ⟨(hspares job hjob).1, (hspares job hjob).2⟩).resolve_left ?_
  rintro ⟨job, -, -, -, hx⟩
  rw [hnone] at hx
  cases hx

/-- That a cache says that an artifact is there does not mean that a file is: there may be a directory,
even if nothing was ever cleaned, and there may be nothing after a cleaning. -/
theorem not_isCached_iff_file :
    (¬ ∀ (c : Cache) (s : Session) (name : String) (path : AbsolutePath), c.IsFresh →
      c.disk.entries = [] → ReflTransGen Use { cache := c } s → c.locate name = .ok path →
      (s.cache.isCached name = .ok (some true) ↔ ∃ x, s.cache.disk.content? path = some x)) ∧
    ¬ ∀ (c : Cache) (s : Session) (name : String) (path : AbsolutePath), c.IsFresh →
      c.disk.entries = [] → ReflTransGen Chore { cache := c } s → c.locate name = .ok path →
      s.cache.disk.isDirectory path = false →
      (s.cache.isCached name = .ok (some true) ↔ ∃ x, s.cache.disk.content? path = some x) := by
  let c : Cache := { root := { parts := ["c"] } }
  let path : AbsolutePath := { parts := ["c", "a"] }
  let moves : List Move := [.call 0, .write 0, .write 0, .write 0, .write 0, .write 0, .settle 0]
  have hfresh : c.IsFresh := ⟨rfl, rfl, rfl, rfl⟩
  have hpath : c.locate "/a" = .ok path := Act.eq_ok_of_toOption (by decide +kernel)
  constructor
  · intro h
    let callers : List Caller := [{ address := .ofUrl "/a/b" (some false), content := "x" }]
    let began : Session := { cache := c, callers }
    have hs : ReflTransGen Use { cache := c } (began.playAll moves) :=
      (uses_playAll began moves).head (.users callers [] 20 [])
    have hcached : (began.playAll moves).cache.isCached "/a" = .ok (some true) :=
      Act.eq_ok_of_toOption (by decide +kernel)
    have hnone : (began.playAll moves).cache.disk.content? path = none := by decide +kernel
    obtain ⟨x, hx⟩ := (h c _ "/a" path hfresh rfl hs hpath).1 hcached
    rw [hnone] at hx
    cases hx
  · intro h
    let callers : List Caller := [{ address := .ofUrl "/a" (some false), content := "" }]
    let began : Session := { cache := c, callers }
    let stored := began.playAll moves
    let s : Session := { stored with cache := ((clean .byName fun _ => false).run stored.cache).2 }
    have hrest : ∀ job ∈ stored.cache.jobs, job.stage.inFlight = false := by decide +kernel
    have hstored : ReflTransGen Use { cache := c } stored :=
      (uses_playAll began moves).head (.users callers [] 20 [])
    have hs : ReflTransGen Chore { cache := c } s :=
      (chores_of_uses hstored).tail (.clean hrest .byName fun _ => false)
    have hcached : s.cache.isCached "/a" = .ok (some true) :=
      Act.eq_ok_of_toOption (by decide +kernel)
    have hnone : s.cache.disk.content? path = none := by decide +kernel
    obtain ⟨x, hx⟩ := (h c s "/a" path hfresh rfl hs hpath (by decide +kernel)).1 hcached
    rw [hnone] at hx
    cases hx

end Session

end SchemaArtifacts
