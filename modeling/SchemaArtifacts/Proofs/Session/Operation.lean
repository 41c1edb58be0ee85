import SchemaArtifacts.Proofs.Cache.Books
import SchemaArtifacts.Proofs.Export.Finding
import SchemaArtifacts.Session.Run

/-!
# What a move does

A move is a step of one participant, of a write, or of the cache, or it does nothing. Whoever makes it,
it comes to the cache as at most one of its four operations. What all four operations keep is therefore
kept by every move.

## Main definitions

* `Cache.Operation` — one cache is the other after at most one operation
* `Session.Plays` — what each kind of move can do to a session

## Main results

* `Cache.Operation.books` — an operation is at most one entry in the books
* `Session.plays_play` — a move does one of these things
* `Session.operation_play` — every move is at most one operation of the cache
-/

namespace SchemaArtifacts

/-- The cache `c'` is `c` after at most one operation. -/
inductive Cache.Operation (c : Cache) : (c' : Cache) → Prop where
  | none : Operation c c
  | request (a : Address) (content : String) : Operation c ((Cache.request a content).run c).2
  | advance (id : Nat) : Operation c (c.advance id)
  | settle (id : Nat) : Operation c (c.settle id)
  | cancelWrite (id : Nat) : Operation c (c.cancelWrite id)

/-- An operation is an entry in the books, or none. -/
theorem Cache.Operation.books {c c' : Cache} (h : c.Operation c') : Cache.Books c c' := by
  cases h with
  | none => exact .refl c
  | request a content => exact Cache.books_request c a content
  | advance id => exact Cache.books_advance c id
  | settle id => exact Cache.books_settle c id
  | cancelWrite id => exact Cache.books_cancelWrite c id

theorem Caller.operation_step (caller : Caller) (c : Cache) : c.Operation (caller.step c).1 := by
  unfold step
  split
  · exact .request caller.address caller.content
  · exact .none
  · exact .none

theorem Delivery.operation_step (d : Delivery) (c : Cache) : c.Operation (d.step c).1 := by
  unfold step
  split
  · have h := Exporter.reads_start c d.exporter
    rcases hrun : (Exporter.start Cache.shelf).run (c, d.exporter) with ⟨result, c', e⟩
    rw [hrun] at h
    obtain rfl : c' = c := h
    exact .none
  · exact .none
  · exact .none
  · have h := Exporter.reads_contents c d.exporter
    rcases hrun : (Exporter.contents Cache.shelf).run (c, d.exporter) with ⟨result, c', e⟩
    rw [hrun] at h
    obtain rfl : c' = c := h
    cases result with
    | error err => exact .none
    | ok content => exact Caller.operation_step _ c'
  · exact Caller.operation_step _ c
  · exact .none

namespace Session

theorem stepDelivery_of_getElem? {s : Session} {i : Nat} {d : Delivery}
    (h : s.deliveries[i]? = some d) : s.stepDelivery i =
      { s with cache := (d.step s.cache).1 }.putDelivery i (d.step s.cache).2 := by
  simp only [stepDelivery, h]

theorem operation_stepDelivery (s : Session) (i : Nat) :
    s.cache.Operation (s.stepDelivery i).cache := by
  unfold stepDelivery
  split
  · exact .none
  · exact Delivery.operation_step _ s.cache

/-- What a move can do to a session. -/
inductive Plays (s : Session) : Move → Session → Prop where
  /-- There is nobody to move, or it is not their turn. -/
  | still (m : Move) : Plays s m s
  | calls (i : Nat) (caller : Caller) (there : s.callers[i]? = some caller) :
      Plays s (.call i)
        { s with
          cache := (caller.step s.cache).1, callers := s.callers.set i (caller.step s.cache).2 }
  | givesUp (i : Nat) :
      Plays s (.giveUp i) { s with callers := s.callers.modify i Caller.giveUp }
  /-- A delivery takes a step: it begins, when there is room, or it has begun. -/
  | delivers (m : Move) (i : Nat) (d : Delivery) (there : s.deliveries[i]? = some d)
      (turn : m = .start ∧ s.underWay < s.limit ∨ m = .proceed i ∧ d.isReady = false) :
      Plays s m (s.stepDelivery i)
  | abandons (i : Nat) (d : Delivery) (there : s.deliveries[i]? = some d) :
      Plays s (.abandon i) (s.putDelivery i d.abandon)
  | writes (id : Nat) : Plays s (.write id) { s with cache := s.cache.advance id }
  | settles (id : Nat) : Plays s (.settle id) { s with cache := s.cache.settle id }
  | callsOff (id : Nat) : Plays s (.callOff id) { s with cache := s.cache.cancelWrite id }

/-- Where there is no delivery, none takes a step. -/
theorem stepDelivery_of_none {s : Session} {i : Nat} (h : s.deliveries[i]? = none) :
    s.stepDelivery i = s := by
  simp only [stepDelivery, h]

/-- A move does one of these things. -/
theorem plays_play (s : Session) (m : Move) : s.Plays m (s.play m) := by
  cases m with
  | call i =>
    simp only [play]
    split
    · exact .still _
    · rename_i caller hcaller
      exact .calls i caller hcaller
  | giveUp i => exact .givesUp i
  | start =>
    simp only [play]
    split
    · rename_i hroom
      cases hd : s.deliveries[s.deliveries.findIdx Delivery.isReady]? with
      | none =>
        rw [stepDelivery_of_none hd]
        exact .still _
      | some d => exact .delivers _ _ d hd (Or.inl ⟨rfl, hroom⟩)
    · exact .still _
  | proceed i =>
    simp only [play]
    split
    · exact .still _
    · rename_i hready
      cases hd : s.deliveries[i]? with
      | none =>
        rw [stepDelivery_of_none hd]
        exact .still _
      | some d => exact .delivers _ i d hd (Or.inr ⟨rfl, by simpa [hd] using hready⟩)
  | abandon i =>
    simp only [play]
    split
    · exact .still _
    · rename_i d hd
      exact .abandons i d hd
  | write id => exact .writes id
  | settle id => exact .settles id
  | callOff id => exact .callsOff id

/-- Every move is at most one operation of the cache. -/
theorem operation_play (s : Session) (m : Move) : s.cache.Operation (s.play m).cache := by
  have hplays := s.plays_play m
  generalize s.play m = t at hplays ⊢
  cases hplays with
  | still => exact .none
  | calls i caller => exact caller.operation_step s.cache
  | givesUp => exact .none
  | delivers _ i => exact operation_stepDelivery s i
  | abandons => exact .none
  | writes id => exact .advance id
  | settles id => exact .settle id
  | callsOff id => exact .cancelWrite id

end Session
end SchemaArtifacts
