import SchemaArtifacts.Proofs.Session.Operation

/-!
# A path is written once

Whatever the order in which the users of a cache, its writes and the cache itself take their steps,
and whatever happens to the disk meanwhile, no path is written successfully twice. Every move of a
session is an entry in the books of its cache, or none, so this is a matter of the books alone.

## Main definitions

* `Occurrence` — a move of a session, or a change of the disk from outside
* `Session.happenAll` — what a sequence of occurrences does
* `Session.successes` — how many writes to a path succeed on the way

## Main results

* `Session.books_happen` — each occurrence is an entry in the books
* `Session.placements_happenAll` — each success leaves its mark in the books
* `Session.write_once` — at most one write to a path succeeds, no two are in flight together, and
  the accounts of the cache agree whenever nothing is on its way
-/

namespace SchemaArtifacts

/-- What can happen around a cache. -/
inductive Occurrence where
  | move (m : Move)
  /-- Something outside changes the disk. -/
  | disk (disk : Disk)

namespace Session

/-- What an occurrence does. -/
def happen (s : Session) : Occurrence → Session
  | .move m => s.play m
  | .disk disk => { s with cache := { s.cache with disk } }

/-- What a sequence of occurrences does. -/
def happenAll (s : Session) (os : List Occurrence) : Session := os.foldl happen s

theorem books_happen (s : Session) (o : Occurrence) :
    Cache.Books s.cache (s.happen o).cache := by
  cases o with
  | move m => exact (operation_play s m).books
  | disk disk => exact .kept rfl rfl rfl rfl

/-- Balanced books stay balanced, whatever happens. -/
theorem balanced_happenAll {s : Session} (h : s.cache.Balanced) (os : List Occurrence) :
    (s.happenAll os).cache.Balanced := by
  induction os generalizing s with
  | nil => exact h
  | cons o os ih => exact ih ((books_happen s o).balanced h)

/-- An occurrence is the step in which a write to a path succeeds: it was in flight, and now the
artifact is in its place. -/
def succeedsAt (s : Session) (p : AbsolutePath) : Occurrence → Bool
  | .move (.write id) =>
    s.cache.jobs[id]?.any (fun job => job.stage.inFlight && job.path = p) &&
      (s.play (.write id)).cache.jobs[id]?.any fun job => job.stage.isDone
  | _ => false

/-- How many writes to a path succeed on the way. -/
def successes (s : Session) (p : AbsolutePath) : List Occurrence → Nat
  | [] => 0
  | o :: os => (if s.succeedsAt p o then 1 else 0) + (s.happen o).successes p os

theorem placements_happen (s : Session) (p : AbsolutePath) (o : Occurrence) :
    s.cache.placements p + (if s.succeedsAt p o then 1 else 0) ≤
      (s.happen o).cache.placements p := by
  have hb := books_happen s o
  split
  · rename_i hs
    unfold succeedsAt at hs
    split at hs
    · rename_i id
      simp only [Bool.and_eq_true, Option.any_eq_true, decide_eq_true_eq] at hs
      obtain ⟨⟨job, hj, hf, rfl⟩, job', hj', hd⟩ := hs
      exact hb.placements_lt hj hf hj' hd
    · cases hs
  · exact hb.placements_le p

/-- Each success leaves its mark in the books. -/
theorem placements_happenAll (s : Session) (p : AbsolutePath) (os : List Occurrence) :
    s.cache.placements p + s.successes p os ≤ (s.happenAll os).cache.placements p := by
  induction os generalizing s with
  | nil => exact Nat.le_refl _
  | cons o os ih =>
    have hstep := placements_happen s p o
    have hrest := ih (s.happen o)
    rw [successes]
    show _ ≤ ((s.happen o).happenAll os).cache.placements p
    omega

/-- A path is written once. From a fresh cache, with any callers and deliveries, and with anything
that can happen in any order: at most one write to a path succeeds; two writes to a path that are in
flight are one; and when no write is on its way, the count is the number of paths known as written,
and these are the paths with a pending write. -/
theorem write_once (s : Session) (fresh : s.cache.IsFresh) (os : List Occurrence) :
    (∀ p, s.successes p os ≤ 1) ∧
    (∀ (id other : Nat) (job job' : Job), (s.happenAll os).cache.jobs[id]? = some job →
      (s.happenAll os).cache.jobs[other]? = some job' → job.stage.inFlight → job'.stage.inFlight →
      job'.path = job.path → other = id) ∧
    ((s.happenAll os).cache.Quiescent →
      (s.happenAll os).cache.count = (s.happenAll os).cache.written.length ∧
      (s.happenAll os).cache.written.Nodup ∧
      ((s.happenAll os).cache.pending.map Prod.fst).Nodup ∧
      ∀ p, p ∈ (s.happenAll os).cache.pending.map Prod.fst ↔
        p ∈ (s.happenAll os).cache.written) := by
  have h : (s.happenAll os).cache.Balanced := balanced_happenAll fresh.balanced os
  refine ⟨fun p => ?_, fun id other job job' hj hj' hf hf' hp => ?_, fun hq => ?_⟩
  · have hle := placements_happenAll s p os
    have hone := h.placements_le_one p
    omega
  · exact h.eq_of_stands hj hj' hp (h.stands_of_inFlight hj hf) (h.stands_of_inFlight hj' hf')
  · exact ⟨h.count_of_quiescent hq, h.nodup_written, h.nodup_pending,
      h.mem_pending_iff_of_quiescent hq⟩

/-- Two callers store at one path under two names, and the disk is emptied while the text is being
written. The write is tried again, succeeds, and is counted once. -/
theorem write_once_two_callers : ∃ (s : Session) (os : List Occurrence) (p : AbsolutePath),
    s.cache.IsFresh ∧ s.successes p os = 1 ∧ (∀ q, s.successes q os ≤ 1) ∧
      (s.happenAll os).cache.Quiescent ∧ (s.happenAll os).cache.written = [p] ∧
      (s.happenAll os).cache.count = 1 := by
  let s : Session :=
    { cache := { root := { parts := ["c"] } }
      callers := [{ address := .ofOutput "a.js", content := "x" },
        { address := .ofOutput "/a.js", content := "y" }] }
  let os : List Occurrence := [.move (.call 0), .move (.write 0), .move (.write 0), .disk {},
    .move (.call 1), .move (.write 0), .move (.write 0), .move (.write 0), .move (.write 0),
    .move (.write 0), .move (.write 0), .move (.write 0), .move (.write 0), .move (.settle 0),
    .move (.call 0), .move (.call 1)]
  have fresh : s.cache.IsFresh := ⟨rfl, rfl, rfl, rfl⟩
  have hsuccesses : s.successes { parts := ["c", "a.js"] } os = 1 := by decide +kernel
  have hwritten : (s.happenAll os).cache.written = [{ parts := ["c", "a.js"] }] := by decide +kernel
  have hquiescent : (s.happenAll os).cache.Quiescent := by
    unfold Cache.Quiescent
    decide +kernel
  obtain ⟨hone, -, hend⟩ := write_once s fresh os
  have hcount := (hend hquiescent).1
  rw [hwritten] at hcount
  exact ⟨s, os, _, fresh, hsuccesses, hone, hquiescent, hwritten, hcount⟩

end Session
end SchemaArtifacts
