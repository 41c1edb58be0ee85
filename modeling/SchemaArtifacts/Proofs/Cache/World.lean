import SchemaArtifacts.Proofs.Session.Operation

/-!
# What a cache never changes

The root of a cache, its backoff, and what the world adds to it stay as they are, whatever is done.

## Main definitions

* `Cache.SameWorld` — two caches have the same root and the same world around them

## Main results

* `Cache.sameWorld_request`, `Cache.sameWorld_advance`, `Cache.sameWorld_settle`,
  `Cache.sameWorld_cancelWrite` — the operations of a cache
* `Session.sameWorld_playAll` — the moves of a session
-/

namespace SchemaArtifacts

namespace Cache

/-- Two caches have the same root and the same world around them. -/
structure SameWorld (c c' : Cache) : Prop where
  root : c'.root = c.root
  backoff : c'.backoff = c.backoff
  faults : c'.faults = c.faults
  draws : c'.draws = c.draws

variable {c c' c'' : Cache}

theorem SameWorld.refl (c : Cache) : SameWorld c c := ⟨rfl, rfl, rfl, rfl⟩

theorem SameWorld.trans (h : SameWorld c c') (h' : SameWorld c' c'') : SameWorld c c'' :=
  ⟨h'.root.trans h.root, h'.backoff.trans h.backoff, h'.faults.trans h.faults,
    h'.draws.trans h.draws⟩

theorem sameWorld_failTry (c : Cache) (id attempt : Nat) (e : Failure) :
    SameWorld c (c.failTry id attempt e) := by
  unfold failTry
  split
  · dsimp only
    split <;> exact ⟨rfl, rfl, rfl, rfl⟩
  · exact ⟨rfl, rfl, rfl, rfl⟩

theorem sameWorld_onDisk (c : Cache) (id attempt : Nat) (act : Act Disk Unit) (next : Stage) :
    SameWorld c (c.onDisk id attempt act next) := by
  unfold onDisk
  rcases act.run c.disk with ⟨result, disk⟩
  cases result with
  | ok _ => exact ⟨rfl, rfl, rfl, rfl⟩
  | error e =>
    have h := sameWorld_failTry { c with disk } id attempt e
    exact ⟨h.root, h.backoff, h.faults, h.draws⟩

theorem sameWorld_request (c : Cache) (a : Address) (content : String) :
    SameWorld c ((request a content).run c).2 := by
  rw [run_request]
  split
  · exact .refl c
  · split
    · exact .refl c
    · split <;> exact ⟨rfl, rfl, rfl, rfl⟩

theorem sameWorld_advance (c : Cache) (id : Nat) : SameWorld c (c.advance id) := by
  unfold advance
  cases c.jobs[id]? with
  | none => exact .refl c
  | some job =>
    dsimp only
    cases job.stage with
    | ready n =>
      have hbegun : SameWorld c { c with attempts := job.path :: c.attempts } :=
        ⟨rfl, rfl, rfl, rfl⟩
      exact hbegun.trans (sameWorld_onDisk _ id n _ _)
    | placing n =>
      have hplaced := sameWorld_onDisk c id n
        (job.perform (c.faults c.attempts job.path) .placing) (.ended (.ok ()))
      dsimp only
      split
      · exact ⟨hplaced.root, hplaced.backoff, hplaced.faults, hplaced.draws⟩
      · exact hplaced
    | resting n => exact ⟨rfl, rfl, rfl, rfl⟩
    | ended outcome => exact .refl c
    | _ n => exact sameWorld_onDisk c id n _ _

theorem sameWorld_settle (c : Cache) (id : Nat) : SameWorld c (c.settle id) := by
  unfold settle
  split
  · exact .refl c
  · split
    · exact .refl c
    · split
      · exact .refl c
      · dsimp only
        split <;> exact ⟨rfl, rfl, rfl, rfl⟩

theorem sameWorld_cancelWrite (c : Cache) (id : Nat) : SameWorld c (c.cancelWrite id) := by
  unfold cancelWrite
  split
  · exact .refl c
  · split <;> exact ⟨rfl, rfl, rfl, rfl⟩

theorem Operation.sameWorld (h : c.Operation c') : SameWorld c c' := by
  cases h with
  | none => exact .refl c
  | request a content => exact sameWorld_request c a content
  | advance id => exact sameWorld_advance c id
  | settle id => exact sameWorld_settle c id
  | cancelWrite id => exact sameWorld_cancelWrite c id

end Cache

theorem Session.sameWorld_playAll (s : Session) (moves : List Move) :
    Cache.SameWorld s.cache (s.playAll moves).cache := by
  induction moves generalizing s with
  | nil => exact .refl s.cache
  | cons m moves ih => exact (operation_play s m).sameWorld.trans (ih (s.play m))

end SchemaArtifacts
