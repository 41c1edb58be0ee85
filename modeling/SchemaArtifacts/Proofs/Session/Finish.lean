import SchemaArtifacts.Proofs.Session.Turn
import SchemaArtifacts.Session.Run

/-!
# Finishing is orderly

The line and the rounds that finish a session are one course of moves among all. Where there are no
callers, nobody calls in it, nobody gives up and nothing is called off. So what holds after every
course of orderly moves holds of an export of a whole schema.

## Main definitions

* `Turn.isOrderly` — it is not the turn of a caller
* `Session.LeadsOrderly` — some sequence of orderly moves leads from one session to another

## Main results

* `Session.leadsOrderly_finish` — finishing is a sequence of orderly moves
* `Cache.exists_of_run_exportAll` — what an export of a schema comes to
-/

namespace SchemaArtifacts

/-- It is not the turn of a caller. -/
def Turn.isOrderly : Turn → Bool
  | .caller _ => false
  | _ => true

namespace Session

variable {s t u : Session} {place : Place} {places rest : List Place}

/-- Some sequence of orderly moves leads from one session to another. -/
def LeadsOrderly (s t : Session) : Prop :=
  ∃ moves : List Move, (∀ m ∈ moves, m.isOrderly) ∧ s.playAll moves = t

theorem LeadsOrderly.refl (s : Session) : s.LeadsOrderly s := ⟨[], by simp, rfl⟩

theorem LeadsOrderly.trans (h : s.LeadsOrderly t) (h' : t.LeadsOrderly u) : s.LeadsOrderly u := by
  obtain ⟨moves, horderly, rfl⟩ := h
  obtain ⟨others, horderly', rfl⟩ := h'
  exact ⟨moves ++ others, List.forall_mem_append.2 ⟨horderly, horderly'⟩, playAll_append moves others⟩

/-- Nobody comes to call. -/
theorem callers_playAll_eq_nil (h : s.callers = []) (moves : List Move) :
    (s.playAll moves).callers = [] := by
  induction moves generalizing s with
  | nil => exact h
  | cons m moves ih =>
    apply ih
    rw [← List.length_eq_zero_iff, length_callers_play, h, List.length_nil]

/-! ## Turns of the line -/

theorem isOrderly_of_mem_movesOf {turn : SchemaArtifacts.Turn} (h : turn.isOrderly) {m : Move}
    (hm : m ∈ s.movesOf turn) : m.isOrderly := by
  cases turn with
  | caller i => cases h
  | newcomer =>
    simp only [movesOf, List.mem_cons, List.not_mem_nil, or_false] at hm
    rcases hm with rfl | rfl <;> rfl
  | try_ id =>
    simp only [movesOf, List.mem_append] at hm
    rcases hm with hm | hm <;> split at hm <;> simp_all [Move.isOrderly]
  | _ =>
    obtain rfl := List.mem_singleton.1 hm
    rfl

/-- Without callers, only deliveries wait for a write. -/
theorem isOrderly_of_mem_placesOfWrite (h : s.callers = []) {id : Nat}
    (hp : place ∈ s.placesOfWrite id) : place.turn.isOrderly := by
  unfold placesOfWrite at hp
  split at hp
  · cases hp
  · split at hp
    case h_7 =>
      split at hp
      · cases hp
      · rcases List.mem_cons.1 hp with rfl | hp
        · rfl
        · obtain ⟨turn, hturn, rfl⟩ := List.mem_map.1 hp
          simp only [waiters, h, List.length_nil, List.range_zero, List.filter_nil, List.map_nil,
            List.nil_append] at hturn
          obtain ⟨i, -, rfl⟩ := List.mem_map.1 hturn
          rfl
    all_goals
      obtain rfl := List.mem_singleton.1 hp
      rfl

theorem isOrderly_of_mem_placesOfDelivery {i : Nat} (hp : place ∈ s.placesOfDelivery i) :
    place.turn.isOrderly := by
  unfold placesOfDelivery at hp
  split at hp
  case h_4 => cases hp
  all_goals
    obtain rfl := List.mem_singleton.1 hp
    rfl

theorem isOrderly_of_mem_newWrites (hp : place ∈ newWrites s t) : place.turn.isOrderly := by
  obtain ⟨id, -, rfl⟩ := List.mem_map.1 hp
  rfl

/-- Without callers, no turn leads to one of a caller. -/
theorem isOrderly_of_mem_followers (h : t.callers = []) {turn : SchemaArtifacts.Turn}
    (hp : place ∈ followers s t turn) : place.turn.isOrderly := by
  cases turn with
  | caller i => exact isOrderly_of_mem_newWrites hp
  | newcomer =>
    exact (List.mem_append.1 hp).elim isOrderly_of_mem_newWrites isOrderly_of_mem_placesOfDelivery
  | delivery i =>
    exact (List.mem_append.1 hp).elim isOrderly_of_mem_newWrites isOrderly_of_mem_placesOfDelivery
  | try_ id =>
    simp only [followers] at hp
    split at hp
    · exact isOrderly_of_mem_placesOfWrite h hp
    · obtain rfl := List.mem_singleton.1 hp
      rfl
  | answer id => exact isOrderly_of_mem_placesOfWrite h hp
  | note id => cases hp

theorem isOrderly_of_mem_line (h : s.callers = []) (hp : place ∈ s.line) : place.turn.isOrderly := by
  simp only [line, h, List.length_nil, List.range_zero, List.filter_nil, List.map_nil, List.nil_append,
    List.mem_append, List.mem_map, List.mem_flatMap] at hp
  rcases hp with ⟨d, -, rfl⟩ | ⟨id, -, hp⟩
  · rfl
  · exact isOrderly_of_mem_placesOfWrite h hp

/-- The turn of the place in front is taken by orderly moves, and leads to places of such turns. -/
theorem leadsOrderly_pass (h : s.callers = []) (hp : ∀ p ∈ place :: rest, p.turn.isOrderly) :
    s.LeadsOrderly (s.pass place rest).1 ∧ (s.pass place rest).1.callers = [] ∧
      ∀ p ∈ (s.pass place rest).2, p.turn.isOrderly := by
  obtain ⟨hplace, hrest⟩ := List.forall_mem_cons.1 hp
  unfold pass
  split
  · refine ⟨.refl s, h, List.forall_mem_append.2 ⟨hrest, ?_⟩⟩
    exact List.forall_mem_singleton.2 hplace
  · have hcallers := callers_playAll_eq_nil h (s.movesOf place.turn)
    refine ⟨⟨_, fun m hm => isOrderly_of_mem_movesOf hplace hm, rfl⟩, hcallers, ?_⟩
    exact List.forall_mem_append.2 ⟨hrest, fun p hp => isOrderly_of_mem_followers hcallers hp⟩

theorem leadsOrderly_turns (h : s.callers = []) (hp : ∀ p ∈ places, p.turn.isOrderly) (n : Nat) :
    s.LeadsOrderly (s.turns places n) ∧ (s.turns places n).callers = [] := by
  induction n generalizing s places with
  | zero => exact ⟨.refl s, h⟩
  | succ n ih =>
    cases places with
    | nil => exact ⟨.refl s, h⟩
    | cons place rest =>
      obtain ⟨hleads, hcallers, hplaces⟩ := leadsOrderly_pass h hp
      obtain ⟨hleads', hcallers'⟩ := ih hcallers hplaces
      exact ⟨hleads.trans hleads', hcallers'⟩

/-! ## Rounds -/

theorem isOrderly_of_mem_roundMoves (h : s.callers = []) {m : Move} (hm : m ∈ s.roundMoves) :
    m.isOrderly := by
  simp only [roundMoves, h, List.length_nil, List.range_zero, List.map_nil, List.nil_append,
    List.mem_append, List.mem_map, List.mem_flatMap, List.mem_cons, List.not_mem_nil,
    or_false] at hm
  rcases hm with (⟨d, -, rfl⟩ | ⟨i, -, rfl⟩) | ⟨id, -, rfl | rfl⟩ <;> rfl

theorem leadsOrderly_rounds (h : s.callers = []) (n : Nat) : s.LeadsOrderly (s.rounds n) := by
  induction n generalizing s with
  | zero => exact .refl s
  | succ n ih =>
    unfold rounds
    split
    · exact .refl s
    · have hround : s.LeadsOrderly (s.playAll s.roundMoves) :=
        ⟨_, fun m hm => isOrderly_of_mem_roundMoves h hm, rfl⟩
      exact hround.trans (ih (callers_playAll_eq_nil h _))

/-- Without callers, finishing is a sequence of orderly moves. -/
theorem leadsOrderly_finish (h : s.callers = []) : s.LeadsOrderly s.finish := by
  obtain ⟨hleads, hcallers⟩ :=
    leadsOrderly_turns h (fun p hp => isOrderly_of_mem_line h hp) s.turnLimit
  exact hleads.trans (leadsOrderly_rounds hcallers _)

end Session

/-- An export of a schema that gives a report has collected documents. Without any the report is empty.
Else their session is finished and reported, with some time, and its cache is left behind. -/
theorem Cache.exists_of_run_exportAll {c c' : Cache} {request : ExportRequest} {schema : Schema}
    {report : Report} (h : (exportAll request schema).run c = (.ok report, c')) :
    ∃ docs, schema.collect request.roots = .ok docs ∧
      (docs = [] ∧ report = {} ∨ ∃ format elapsed, Format.ofLabel request.format = .ok format ∧
        let done := (Session.ofDocuments c format request.concurrency.toNat docs).finish
        c' = done.cache ∧ report = { done.report with elapsed }) := by
  obtain ⟨docs, _, hcollect, hrest⟩ := Act.run_bind_eq_ok.1 h
  obtain ⟨hdocs, rfl⟩ := Act.run_ofExcept_eq_ok.1 hcollect
  refine ⟨docs, hdocs, ?_⟩
  split at hrest
  · rename_i hnil
    cases hrest
    exact Or.inl ⟨List.isEmpty_iff.1 hnil, rfl⟩
  · split at hrest
    · obtain ⟨_, _, hthrow, -⟩ := Act.run_bind_eq_ok.1 hrest
      cases congrArg Prod.fst hthrow
    · obtain ⟨format, _, hlabel, hexport⟩ := Act.run_bind_eq_ok.1 hrest
      obtain ⟨_, _, hget, hset⟩ := Act.run_bind_eq_ok.1 hexport
      cases hget
      obtain ⟨_, _, hput, hreport⟩ := Act.run_bind_eq_ok.1 hset
      cases hput
      obtain ⟨elapsed, _, helapsed, hsummary⟩ := Act.run_bind_eq_ok.1 hreport
      obtain ⟨-, rfl⟩ := Act.run_ofExcept_eq_ok.1 helapsed
      obtain ⟨_, _, htext, hlast⟩ := Act.run_bind_eq_ok.1 hsummary
      cases hlast
      have hcache := congrArg Prod.snd htext
      rw [Act.run_discard] at hcache
      dsimp only at hcache
      rw [Act.snd_run_ofExcept] at hcache
      cases hformat : Format.ofLabel request.format with
      | error e =>
        rw [hformat] at hlabel
        cases congrArg Prod.fst hlabel
      | ok format' =>
        rw [hformat] at hlabel
        cases hlabel
        exact Or.inr ⟨format, elapsed, rfl, hcache.symm, rfl⟩

end SchemaArtifacts
