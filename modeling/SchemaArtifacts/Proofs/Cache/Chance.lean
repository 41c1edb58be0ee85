import SchemaArtifacts.Proofs.Cache.Advance

/-!
# Chance and the course of a write

The drawn numbers move the delays before another try. They are double precision numbers, and so
whether a rest can be taken at all does not depend on them: the stages of a write are the same,
whatever is drawn.

## Main definitions

* `Backoff.parts` — the middle of a delay, and how far chance can move it
* `Backoff.spread` — a drawn number, spread over both directions

## Main results

* `Backoff.delay_real` — chance enters a delay at its end
* `Backoff.rest_real` — a delay that there is can be waited
* `Stage.setBack_real` — nor does the stage after a failed try
-/

namespace SchemaArtifacts

namespace Number

/-- An operation with a double precision number needs the other number to become one. -/
theorem combine_real (exact : Int → Int → Int) (rounded : Binary64 → Binary64 → Binary64)
    (a : Number) (x : Binary64) :
    combine exact rounded a (.real x) = a.toReal.map fun z => .real (rounded z x) := by
  cases a with
  | int n =>
    simp only [combine]
    cases toReal (.int n) <;> rfl
  | real z => rfl

theorem real_combine (exact : Int → Int → Int) (rounded : Binary64 → Binary64 → Binary64)
    (x : Binary64) (a : Number) :
    combine exact rounded (.real x) a = a.toReal.map fun z => .real (rounded x z) := by
  cases a with
  | int n =>
    simp only [combine]
    cases toReal (.int n) <;> rfl
  | real z => rfl

theorem toReal_one : toReal (.int 1) = .ok (.finite false 1) := by
  have hone : Binary64.ofInt? 1 = some (.finite false 1) := by decide +kernel
  rw [toReal, hone]
  rfl

theorem toReal_two : toReal (.int 2) = .ok (.finite false 2) := by
  have htwo : Binary64.ofInt? 2 = some (.finite false 2) := by decide +kernel
  rw [toReal, htwo]
  rfl

end Number

namespace Backoff

open Number

variable {b : Backoff} {attempt : Int} {x : Binary64} {d : Number}

/-- The middle of a delay, and how far chance can move it. -/
def parts (b : Backoff) (attempt : Int) : Except OutOfRange (Binary64 × Binary64) := do
  let d ← b.capped attempt
  let s ← b.span d
  return (← d.toReal, ← s.toReal)

/-- A drawn number, spread over both directions. -/
def spread (x : Binary64) : Binary64 := x * .finite false 2 - .finite false 1

/-- A delay is moved by its share of a drawn number. -/
theorem moved_real (d s : Number) (x : Binary64) : moved d s (.real x) = do
    let middle ← d.toReal
    let share ← s.toReal
    return greatest (.int 0) (.real (middle + share * spread x)) := by
  have hdouble : (Number.real x).mul (.int 2) = .ok (.real (x * .finite false 2)) := by
    rw [mul, real_combine, toReal_two]
    rfl
  have hspread : (Number.real (x * .finite false 2)).sub (.int 1) = .ok (.real (spread x)) := by
    rw [sub, real_combine, toReal_one]
    rfl
  have hshare := combine_real (· * ·) (· * ·) s (spread x)
  simp only [moved, hdouble, bind, Except.bind, hspread]
  rw [mul, hshare]
  cases s.toReal with
  | error e => cases d.toReal <;> rfl
  | ok share =>
    simp only [Except.map, add, combine_real]
    cases d.toReal <;> rfl

/-- Chance enters a delay at its end. -/
theorem delay_real (b : Backoff) (attempt : Int) (x : Binary64) : b.delay attempt (.real x) =
    (b.parts attempt).map fun part => greatest (.int 0) (.real (part.1 + part.2 * spread x)) := by
  unfold delay parts
  cases b.capped attempt with
  | error e => rfl
  | ok d =>
    simp only [bind, Except.bind]
    cases b.span d with
    | error e => rfl
    | ok s =>
      simp only [moved_real, bind, Except.bind]
      cases d.toReal with
      | error e => rfl
      | ok middle => cases s.toReal <;> rfl

/-- A delay with a double precision draw can be told in seconds. -/
theorem exists_toReal_greatest (y : Binary64) :
    ∃ z, (greatest (.int 0) (.real y)).toReal = .ok z := by
  have hzero : (Binary64.ofInt? 0).isSome := by decide +kernel
  obtain ⟨zero, hzero⟩ := Option.isSome_iff_exists.1 hzero
  unfold greatest
  split
  · exact ⟨y, rfl⟩
  · exact ⟨zero, by simp only [toReal, hzero, Option.elim]⟩

/-- A delay that there is can be waited. -/
theorem rest_real (b : Backoff) (attempt : Int) (x : Binary64) :
    b.rest attempt (.real x) = b.delay attempt (.real x) := by
  rw [rest, delay_real]
  cases b.parts attempt with
  | error e => rfl
  | ok part =>
    obtain ⟨z, hz⟩ := exists_toReal_greatest (part.1 + part.2 * spread x)
    simp only [Except.map, bind, Except.bind, hz]
    rfl

/-- A number is drawn for a delay that there is. -/
theorem draws_of_delay (h : b.delay attempt (.real x) = .ok d) : b.draws attempt := by
  rw [delay_real] at h
  obtain ⟨part, hpart, -⟩ := Result.map_eq_ok.1 h
  obtain ⟨d₀, hd, hpart⟩ := Result.bind_eq_ok.1 hpart
  obtain ⟨s, hs, -⟩ := Result.bind_eq_ok.1 hpart
  simp only [draws, hd, hs]

end Backoff

/-- The stage after a failed try does not depend on chance. -/
theorem Stage.setBack_real (b : Backoff) (x y : Binary64) (attempt : Nat) (e : Failure) :
    setBack b (.real x) attempt e = setBack b (.real y) attempt e := by
  unfold setBack
  rw [b.rest_real, b.rest_real, b.delay_real, b.delay_real]
  cases b.parts attempt <;> rfl

/-- The stage after an operation on the disk depends on its result alone. -/
theorem Stage.after_congr (b : Backoff) (x y : Binary64) (attempt : Nat) (next : Stage)
    {outcome outcome' : Except Failure Unit × Disk} (h : outcome'.1 = outcome.1) :
    (Stage.after b (.real y) attempt next outcome').1 =
      (Stage.after b (.real x) attempt next outcome).1 := by
  obtain ⟨result, d⟩ := outcome
  obtain ⟨result', d'⟩ := outcome'
  obtain rfl : result' = result := h
  cases result' with
  | ok _ => rfl
  | error e => exact setBack_real b y x attempt _

theorem Stage.after_snd (b : Backoff) (draw : Number) (attempt : Nat) (next : Stage)
    (outcome : Except Failure Unit × Disk) :
    (Stage.after b draw attempt next outcome).2 = outcome.2 := by
  obtain ⟨_ | _, d⟩ := outcome <;> rfl

end SchemaArtifacts
