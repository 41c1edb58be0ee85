import SchemaArtifacts.Proofs.Cache.Chance
import SchemaArtifacts.Proofs.Number.Rounding

/-!
# Delays

The delay after a failed try is capped, and chance moves it by a share of itself. It is computed with
double precision numbers wherever one of its parts is one, so each operation may add a small part, and
an integer that meets such a number must not be too large for it. The powers of two become too large,
however low the cap is.

## Main definitions

* `Number.Amounts` — the value of a finite number that is not below zero
* `Binary64.Within` — a number is no larger in size than a bound
* `Backoff.Overflows` — the ways in which an integer is too large
* `Number.IsDelay` — a number is not below zero and no larger than a bound

## Main results

* `Backoff.exists_amounts_capped` — the delay before chance moves it is at most the greatest
* `Backoff.delay_eq_error_iff` — when there is no delay
* `Backoff.delay_within` — how long a delay is
-/

namespace SchemaArtifacts

namespace Number

/-- The value of a finite number that is not below zero. -/
inductive Amounts : Number → Rat → Prop
  | int (n : Nat) : Amounts (.int n) n
  | real (x : Rat) (nonneg : 0 ≤ x) : Amounts (.real (.finite false x)) x
  | minusZero : Amounts (.real (.finite true 0)) 0

variable {a : Number} {x : Rat}

theorem Amounts.nonneg (h : a.Amounts x) : 0 ≤ x := by
  cases h with
  | int n => exact Nat.cast_nonneg n
  | real x nonneg => exact nonneg
  | minusZero => exact le_refl _

theorem Amounts.place?_eq (h : a.Amounts x) : a.place? = some (0, x) := by
  cases h with
  | int n => simp [place?]
  | real x nonneg => rfl
  | minusZero => simp [place?]

/-- A number that becomes a double precision number is rounded, and keeps its sign. -/
theorem Amounts.exists_of_toReal {y : Binary64} (h : a.Amounts x) (hy : a.toReal = .ok y) :
    ∃ s size, y = .finite s size ∧ 0 ≤ size ∧ size ≤ x * (1 + 2 ^ (-53 : Int)) ∧
      (s = true → size = 0) := by
  have hgrows : ∀ {size : Rat}, 0 ≤ size → size ≤ size * (1 + 2 ^ (-53 : Int)) :=
    fun hsize => le_mul_of_one_le_right hsize (le_add_of_nonneg_right (by positivity))
  cases h with
  | int n =>
    rw [toReal, Binary64.ofInt?_eq] at hy
    split at hy
    · cases hy
    · cases hy
      refine ⟨_, _, rfl, Binary64.rounded_nonneg _, ?_, fun hs => ?_⟩
      · rw [Int.natAbs_natCast]
        cases n with
        | zero => simp [Binary64.rounded_zero]
        | succ n => exact Binary64.rounded_le_of_one_le (by simp)
      · exact absurd (of_decide_eq_true hs) (by omega)
  | real x nonneg =>
    cases hy
    exact ⟨_, _, rfl, nonneg, hgrows nonneg, by simp⟩
  | minusZero =>
    cases hy
    exact ⟨_, _, rfl, le_refl _, hgrows (le_refl _), by simp⟩

/-- The lesser of two numbers that are not below zero, of which the first may be infinite. -/
theorem exists_amounts_least {p : Number} {y : Rat}
    (hp : (∃ x, p.Amounts x) ∨ p = .real (.infinity false)) (ha : a.Amounts y) :
    ∃ x ≤ y, (least p a).Amounts x := by
  unfold least lt
  rw [ha.place?_eq]
  rcases hp with ⟨x, hp⟩ | rfl
  · rw [hp.place?_eq]
    dsimp only
    split
    · exact ⟨y, le_refl _, ha⟩
    · rename_i hnot
      exact ⟨x, not_lt.1 (by simpa using hnot), hp⟩
  · exact ⟨y, le_refl _, ha⟩

/-- A product is exact, or one of double precision numbers. -/
theorem mul_eq_ok {a' z : Number} (h : a.mul a' = .ok z) :
    (∃ m n, a = .int m ∧ a' = .int n ∧ z = .int (m * n)) ∨
      ∃ x y, a.toReal = .ok x ∧ a'.toReal = .ok y ∧ z = .real (x * y) := by
  cases a with
  | int m =>
    cases a' with
    | int n => exact Or.inl ⟨m, n, rfl, rfl, (Except.ok.inj h).symm⟩
    | real y =>
      rw [mul, combine_real] at h
      obtain ⟨x, hx, rfl⟩ := Result.map_eq_ok.1 h
      exact Or.inr ⟨x, y, hx, rfl, rfl⟩
  | real x =>
    rw [mul, real_combine] at h
    obtain ⟨y, hy, rfl⟩ := Result.map_eq_ok.1 h
    exact Or.inr ⟨x, y, rfl, hy, rfl⟩

/-- What a number is that is not below zero and no larger than a bound. An infinity stands for all that
is too large. -/
def IsDelay (bound : Rat) (a : Number) : Prop :=
  (∃ v, a.toRat? = some v ∧ 0 ≤ v ∧ v ≤ bound) ∨
    a = .real (.infinity false) ∧ (2 : Rat) ^ (1024 : Int) ≤ bound

end Number

namespace Binary64

open Number

variable {x y : Binary64} {p q : Rat}

/-- A number is no larger in size than a bound. An infinity stands for all that is too large. -/
def Within (bound : Rat) : Binary64 → Prop
  | .nan => True
  | .infinity _ => (2 : Rat) ^ (1024 : Int) ≤ bound
  | .finite _ size => 0 ≤ size ∧ size ≤ bound

theorem Within.mono (h : x.Within p) (hpq : p ≤ q) : x.Within q := by
  cases x with
  | nan => trivial
  | infinity negative => exact le_trans h hpq
  | finite negative size => exact ⟨h.1, h.2.trans hpq⟩

theorem ofMagnitude_within (negative : Bool) {size : Rat} (h : rounded size ≤ p) :
    (ofMagnitude negative size).Within p := by
  rw [ofMagnitude_eq]
  split
  · exact le_trans ‹_› h
  · exact ⟨rounded_nonneg size, h⟩

/-- What an operation adds to a bound by rounding. -/
def grown (bound : Rat) : Rat := bound * (1 + 2 ^ (-53 : Int)) + 2 ^ (-1075 : Int)

theorem le_grown (h : 0 ≤ p) : p ≤ grown p := by
  unfold grown
  rw [mul_one_add, add_assoc]
  exact le_add_of_nonneg_right (by positivity)

theorem grown_le_grown (h : p ≤ q) : grown p ≤ grown q :=
  add_le_add (mul_le_mul_of_nonneg_right h (by positivity)) (le_refl _)

theorem rounded_le_grown {size : Rat} (h : 0 ≤ size) (hp : size ≤ p) : rounded size ≤ grown p :=
  (rounded_le h).trans (grown_le_grown hp)

/-- A product is no larger than the product of the bounds, up to rounding. An infinity is one only if
the other factor may be one or more. -/
theorem mul_within {s : Bool} {size : Rat} (hx : x.Within p) (hy : 0 ≤ size) (hq : size ≤ q)
    (hlarge : x.isFinite ∨ 0 ≤ p ∧ 1 ≤ q) : (x * .finite s size).Within (grown (p * q)) := by
  cases x with
  | nan => trivial
  | finite t other =>
    exact ofMagnitude_within _ (rounded_le_grown (mul_nonneg hx.1 hy)
      (mul_le_mul hx.2 hq hy (hx.1.trans hx.2)))
  | infinity negative =>
    obtain ⟨hp, hone⟩ := hlarge.resolve_left (by simp [isFinite])
    show Within _ (if size = 0 then nan else infinity (negative != s))
    split
    · trivial
    · have hpq : p ≤ p * q := le_mul_of_one_le_right hp hone
      exact (le_trans hx hpq).trans (le_grown (hp.trans hpq))

theorem finite_add_finite (s t : Bool) (size other : Rat) : finite s size + finite t other =
    if (if s then -size else size) + (if t then -other else other) = 0 then finite (s && t) 0
    else ofRat ((if s then -size else size) + (if t then -other else other)) := rfl

/-- A sum is no larger than the sum of the bounds, up to rounding. -/
theorem add_within {s : Bool} {size : Rat} (hx : 0 ≤ size) (hp : size ≤ p) (hy : y.Within q)
    (hq : 0 ≤ q) : (.finite s size + y).Within (grown (p + q)) := by
  have hpos : 0 ≤ p + q := add_nonneg (hx.trans hp) hq
  cases y with
  | nan => trivial
  | infinity negative =>
    have hle : q ≤ p + q := le_add_of_nonneg_left (hx.trans hp)
    exact (le_trans hy hle).trans (le_grown hpos)
  | finite t other =>
    obtain ⟨hother, hle⟩ := hy
    obtain ⟨sum, hsum⟩ : ∃ sum, (if s then -size else size) + (if t then -other else other) = sum :=
      ⟨_, rfl⟩
    have hlow : -(p + q) ≤ sum := by
      cases s <;> cases t <;> simp at hsum <;> linarith
    have hhigh : sum ≤ p + q := by
      cases s <;> cases t <;> simp at hsum <;> linarith
    rw [finite_add_finite, hsum]
    split
    · exact ⟨le_refl _, hpos.trans (le_grown hpos)⟩
    · refine ofMagnitude_within _ ?_
      split
      · exact rounded_le_grown (by linarith) (by linarith)
      · exact rounded_le_grown (by linarith) hhigh

/-- A small magnitude does not become infinite. -/
theorem ofMagnitude_of_le (negative : Bool) {size : Rat} (h : rounded size ≤ 3) :
    ofMagnitude negative size = .finite negative (rounded size) := by
  have hlarge : (2 : Rat) ^ (2 : Int) ≤ 2 ^ (1024 : Int) :=
    zpow_le_zpow_right₀ (by norm_num) (by norm_num)
  rw [ofMagnitude_eq, if_neg (not_le.2 (lt_of_le_of_lt h (lt_of_lt_of_le (by norm_num) hlarge)))]

/-- A drawn number, spread over both directions, is no larger than one, up to rounding. -/
theorem exists_spread {draw : Rat} (h : 0 ≤ draw) (hlt : draw < 1) :
    ∃ s size, Backoff.spread (finite false draw) = finite s size ∧
      0 ≤ size ∧ size ≤ 1 + 8 * 2 ^ (-53 : Int) := by
  have hleast : (2 : Rat) ^ (-1075 : Int) ≤ 2 ^ (-53 : Int) :=
    zpow_le_zpow_right₀ (by norm_num) (by norm_num)
  have hbound : ∀ {size : Rat}, 0 ≤ size →
      rounded size ≤ size * (1 + 2 ^ (-53 : Int)) + 2 ^ (-53 : Int) :=
    fun hsize => (rounded_le hsize).trans (add_le_add (le_refl _) hleast)
  obtain ⟨part, hpart⟩ : ∃ part, (2 : Rat) ^ (-53 : Int) = part := ⟨_, rfl⟩
  have hpositive : 0 < part := hpart ▸ by positivity
  have hsmall : part ≤ 1 / 16 := hpart ▸ by norm_num
  rw [hpart] at hbound ⊢
  have hdouble : rounded (draw * 2) ≤ 2 + 3 * part := by
    have hproduct : draw * 2 * (1 + part) ≤ 2 * (1 + part) :=
      mul_le_mul_of_nonneg_right (by linarith) (by linarith)
    linarith [@hbound (draw * 2) (by linarith)]
  have hnonneg := rounded_nonneg (draw * 2)
  obtain ⟨double, hdraw⟩ : ∃ double, rounded (draw * 2) = double := ⟨_, rfl⟩
  have hmul : finite false draw * finite false 2 = finite false double := by
    show ofMagnitude _ _ = _
    rw [ofMagnitude_of_le _ (by linarith), hdraw]
    rfl
  rw [hdraw] at hdouble hnonneg
  have hsize : ∀ {size : Rat}, 0 ≤ size → size ≤ 1 + 3 * part → rounded size ≤ 1 + 8 * part := by
    intro size hpos hle
    have hproduct : size * (1 + part) ≤ (1 + 3 * part) * (1 + part) :=
      mul_le_mul_of_nonneg_right hle (by linarith)
    nlinarith [hbound hpos]
  rw [Backoff.spread, hmul]
  show ∃ s size, finite false double + finite true 1 = _ ∧ _
  rw [finite_add_finite]
  simp only [Bool.false_eq_true, if_false, if_true, ofRat]
  split
  · exact ⟨_, 0, rfl, le_refl _, by linarith⟩
  · split
    · have hle := @hsize (-(double + -1)) (by linarith) (by linarith)
      exact ⟨_, _, ofMagnitude_of_le _ (by linarith), rounded_nonneg _, hle⟩
    · have hle := @hsize (double + -1) (by linarith) (by linarith)
      exact ⟨_, _, ofMagnitude_of_le _ (by linarith), rounded_nonneg _, hle⟩

/-- A magnitude that is rounded is not below zero, but it may become infinite. -/
theorem amounts_ofMagnitude {negative : Bool} {size : Rat} (hsign : negative = true → size = 0) :
    (∃ x, (Number.real (ofMagnitude negative size)).Amounts x) ∨
      Number.real (ofMagnitude negative size) = .real (.infinity false) := by
  cases negative with
  | true =>
    rw [hsign rfl]
    exact Or.inl ⟨0, .minusZero⟩
  | false =>
    rw [ofMagnitude_eq]
    split
    · exact Or.inr rfl
    · exact Or.inl ⟨_, .real _ (rounded_nonneg size)⟩

/-- A product of numbers that are not below zero is not below zero, but it may be infinite. -/
theorem amounts_mul {a a' z : Number} {p q : Rat} (ha : a.Amounts p) (ha' : a'.Amounts q)
    (h : a.mul a' = .ok z) : (∃ r, z.Amounts r) ∨ z = .real (.infinity false) := by
  rcases mul_eq_ok h with ⟨m, n, rfl, rfl, rfl⟩ | ⟨x, y, hx, hy, rfl⟩
  · cases ha with
    | int m =>
      cases ha' with
      | int n => exact Or.inl ⟨_, .int (m * n)⟩
  · obtain ⟨s, size, rfl, -, -, hsize⟩ := ha.exists_of_toReal hx
    obtain ⟨t, other, rfl, -, -, hother⟩ := ha'.exists_of_toReal hy
    refine amounts_ofMagnitude fun hsign => ?_
    cases s with
    | true => rw [hsize rfl, zero_mul]
    | false =>
      cases t with
      | true => rw [hother rfl, mul_zero]
      | false => cases hsign

end Binary64

namespace Backoff

open Number Binary64

variable {b : Backoff} {attempt : Nat} {first most share : Rat}

/-! ## When there is no delay -/

/-- The ways in which an integer is too large for the double precision number that it meets. -/
inductive Overflows (b : Backoff) (attempt : Nat) : Prop
  /-- The power of two, when the first delay is a double precision number. -/
  | power (x : Binary64) (base : b.baseDelay = .real x) (late : 1024 ≤ attempt)
  /-- The capped delay. -/
  | middle (d : Number) (capped : b.capped attempt = .ok d) (large : d.IsTooLarge)
  /-- The share that is left to chance. -/
  | jitter (x : Binary64) (capped : b.capped attempt = .ok (.real x)) (large : b.jitter.IsTooLarge)
  /-- How far chance can move the capped delay. -/
  | span (d s : Number) (capped : b.capped attempt = .ok d) (moved : b.span d = .ok s)
    (large : s.IsTooLarge)

theorem capped_natCast (b : Backoff) (attempt : Nat) : b.capped attempt =
    (b.baseDelay.mul (.int (Int.pow 2 attempt))).map fun d => least d b.maxDelay := by
  have hpower : Number.twoPow attempt = .ok (.int (Int.pow 2 attempt)) := by
    rw [Number.twoPow, if_pos (Int.natCast_nonneg attempt)]
    rfl
  simp only [capped, hpower, bind, Except.bind]
  cases b.baseDelay.mul (.int (Int.pow 2 attempt)) <;> rfl

/-- There is no capped delay if the power of two is too large. -/
theorem capped_eq_error_iff : b.capped attempt = .error {} ↔
    (∃ x, b.baseDelay = .real x) ∧ 1024 ≤ attempt := by
  rw [capped_natCast, ← isTooLarge_two_pow_iff, isTooLarge_iff]
  cases b.baseDelay with
  | int n => simp [mul, combine, Except.map]
  | real x =>
    rw [mul, real_combine]
    cases toReal (.int (Int.pow 2 attempt)) <;> simp [Except.map]

/-- Chance has no share if just one of the capped delay and the jitter is an integer, and too large. -/
theorem span_eq_error_iff {d : Number} : b.span d = .error {} ↔
    d.IsTooLarge ∧ (∃ x, b.jitter = .real x) ∨ (∃ x, d = .real x) ∧ b.jitter.IsTooLarge := by
  rw [isTooLarge_iff, isTooLarge_iff, span, mul]
  cases hjitter : b.jitter with
  | int n =>
    cases d with
    | int m => simp [combine]
    | real x =>
      rw [real_combine]
      cases toReal (.int n) <;> simp [Except.map]
  | real y =>
    rw [combine_real]
    cases hd : d.toReal with
    | error e => simp [Except.map]
    | ok x => simp [Except.map, toReal]

/-- The parts of a delay are there if each of their steps is. -/
theorem parts_eq_error_iff : b.parts attempt = .error {} ↔ b.capped attempt = .error {} ∨
    ∃ d, b.capped attempt = .ok d ∧ (b.span d = .error {} ∨
      ∃ s, b.span d = .ok s ∧ (d.IsTooLarge ∨ s.IsTooLarge)) := by
  rw [parts]
  cases b.capped attempt with
  | error e => simp [bind, Except.bind]
  | ok d =>
    cases hs : b.span d with
    | error e => simp [bind, Except.bind, hs]
    | ok s =>
      simp only [bind, Except.bind, hs, isTooLarge_iff]
      cases hd : d.toReal with
      | error e => simp [hs, hd]
      | ok x => cases hshare : s.toReal <;> simp [hs, hd, hshare, pure, Except.pure]

/-- Where the parts of a delay come from. -/
theorem exists_of_parts {part : Binary64 × Binary64} (h : b.parts attempt = .ok part) :
    ∃ d s, b.capped attempt = .ok d ∧ b.span d = .ok s ∧ d.toReal = .ok part.1 ∧
      s.toReal = .ok part.2 := by
  obtain ⟨d, hd, h⟩ := Result.bind_eq_ok.1 h
  obtain ⟨s, hs, h⟩ := Result.bind_eq_ok.1 h
  obtain ⟨middle, hmiddle, h⟩ := Result.bind_eq_ok.1 h
  obtain ⟨share, hshare, h⟩ := Result.bind_eq_ok.1 h
  cases h
  exact ⟨d, s, hd, hs, hmiddle, hshare⟩

/-- There is no delay if some integer is too large, whatever is drawn. -/
theorem delay_eq_error_iff {x : Binary64} :
    b.delay attempt (.real x) = .error {} ↔ b.Overflows attempt := by
  have hparts : b.delay attempt (.real x) = .error {} ↔ b.parts attempt = .error {} := by
    rw [delay_real]
    cases b.parts attempt <;> simp [Except.map]
  rw [hparts, parts_eq_error_iff]
  constructor
  · rintro (herror | ⟨d, hd, hspan | ⟨s, hs, hlarge | hlarge⟩⟩)
    · obtain ⟨⟨x, hx⟩, hlate⟩ := capped_eq_error_iff.1 herror
      exact .power x hx hlate
    · rcases span_eq_error_iff.1 hspan with ⟨hlarge, -⟩ | ⟨⟨x, rfl⟩, hlarge⟩
      · exact .middle d hd hlarge
      · exact .jitter x hd hlarge
    · exact .middle d hd hlarge
    · exact .span d s hd hs hlarge
  · rintro (⟨x, hx, hlate⟩ | ⟨d, hd, hlarge⟩ | ⟨x, hd, hlarge⟩ | ⟨d, s, hd, hs, hlarge⟩)
    · exact Or.inl (capped_eq_error_iff.2 ⟨⟨x, hx⟩, hlate⟩)
    · refine Or.inr ⟨d, hd, ?_⟩
      cases hs : b.span d with
      | error e => exact Or.inl rfl
      | ok s => exact Or.inr ⟨s, rfl, Or.inl hlarge⟩
    · exact Or.inr ⟨_, hd, Or.inl (span_eq_error_iff.2 (Or.inr ⟨⟨x, rfl⟩, hlarge⟩))⟩
    · exact Or.inr ⟨d, hd, Or.inr ⟨s, hs, Or.inr hlarge⟩⟩

/-! ## How long a delay is -/

/-- The capped delay is at most the greatest. -/
theorem exists_amounts_capped (hfirst : b.baseDelay.Amounts first) (hmost : b.maxDelay.Amounts most)
    {d : Number} (h : b.capped attempt = .ok d) : ∃ x ≤ most, d.Amounts x := by
  have hpower : (Number.int (Int.pow 2 attempt)).Amounts (2 ^ attempt : Nat) := by
    have hcast : Int.pow 2 attempt = ((2 ^ attempt : Nat) : Int) := (Nat.cast_pow 2 attempt).symm
    rw [hcast]
    exact .int _
  rw [capped_natCast] at h
  obtain ⟨p, hproduct, rfl⟩ := Result.map_eq_ok.1 h
  exact exists_amounts_least (amounts_mul hfirst hpower hproduct) hmost

/-- How far chance can move a delay, up to rounding. -/
theorem within_span (hshare : b.jitter.Amounts share) {d s : Number} {x : Rat} {y : Binary64}
    (hd : d.Amounts x) (hs : b.span d = .ok s) (hy : s.toReal = .ok y) :
    y.Within (grown (x * (1 + 2 ^ (-53 : Int)) * (share * (1 + 2 ^ (-53 : Int))))) := by
  have hgrows : ∀ {size : Rat}, 0 ≤ size → size ≤ size * (1 + 2 ^ (-53 : Int)) :=
    fun hsize => le_mul_of_one_le_right hsize (le_add_of_nonneg_right (by positivity))
  rcases mul_eq_ok hs with ⟨m, n, rfl, hn, rfl⟩ | ⟨p, q, hp, hq, rfl⟩
  · have hproduct : (Number.int (m * n)).Amounts (x * share) := by
      rw [hn] at hshare
      cases hd with
      | int m =>
        cases hshare with
        | int n => exact_mod_cast Amounts.int (m * n)
    obtain ⟨s, size, rfl, hpos, hle, -⟩ := hproduct.exists_of_toReal hy
    have hnonneg : 0 ≤ x * share * (1 + 2 ^ (-53 : Int)) := hpos.trans hle
    refine ⟨hpos, hle.trans ?_⟩
    calc x * share * (1 + 2 ^ (-53 : Int))
        ≤ x * share * (1 + 2 ^ (-53 : Int)) * (1 + 2 ^ (-53 : Int)) := hgrows hnonneg
      _ = x * (1 + 2 ^ (-53 : Int)) * (share * (1 + 2 ^ (-53 : Int))) := by ring
      _ ≤ grown (x * (1 + 2 ^ (-53 : Int)) * (share * (1 + 2 ^ (-53 : Int)))) :=
          le_grown (mul_nonneg (hgrows hd.nonneg |>.trans' hd.nonneg)
            (hgrows hshare.nonneg |>.trans' hshare.nonneg))
  · cases hy
    obtain ⟨s, size, rfl, hpos, hle, -⟩ := hd.exists_of_toReal hp
    obtain ⟨t, other, rfl, hpos', hle', -⟩ := hshare.exists_of_toReal hq
    exact mul_within ⟨hpos, hle⟩ hpos' hle' (Or.inl rfl)

/-- The greater of zero and a number within a bound. -/
theorem isDelay_greatest {y : Binary64} {bound : Rat} (h : y.Within bound) (hbound : 0 ≤ bound) :
    (Number.greatest (.int 0) (.real y)).IsDelay bound := by
  have hzero : (Number.int 0).IsDelay bound := Or.inl ⟨0, rfl, le_refl _, hbound⟩
  unfold Number.greatest
  split
  · rename_i hlt
    cases y with
    | nan => cases hlt
    | infinity negative =>
      cases negative with
      | true => simp [lt, place?] at hlt
      | false => exact Or.inr ⟨rfl, h⟩
    | finite negative size =>
      have hpos : 0 < if negative then -size else size := by simpa [lt, place?] using hlt
      refine Or.inl ⟨_, rfl, hpos.le, ?_⟩
      cases negative with
      | true => exact (neg_nonpos.2 h.1).trans hbound
      | false => exact h.2
  · exact hzero

/-- What rounding may add to a delay: a small part, or next to nothing. -/
theorem grown_le {x : Rat} (hx : 0 ≤ x) (hle : x ≤ most) (hshare : 0 ≤ share) :
    grown (x * (1 + 2 ^ (-53 : Int)) +
      grown (grown (x * (1 + 2 ^ (-53 : Int)) * (share * (1 + 2 ^ (-53 : Int)))) *
        (1 + 8 * 2 ^ (-53 : Int)))) ≤
    most * (1 + share) * (1 + 2 ^ (-49 : Int)) + 2 ^ (-1072 : Int) := by
  have hpart : (2 : Rat) ^ (-49 : Int) = 16 * 2 ^ (-53 : Int) := by norm_num
  have hleast : (2 : Rat) ^ (-1072 : Int) = 8 * 2 ^ (-1075 : Int) := by
    rw [show (-1072 : Int) = -1075 + (3 : Nat) from rfl, two_zpow_eq_mul]
    norm_num
  have hsmall : (2 : Rat) ^ (-53 : Int) ≤ 1 / 100 := by norm_num
  have hzero : (0 : Rat) < 2 ^ (-53 : Int) := by positivity
  have hnone : (0 : Rat) < 2 ^ (-1075 : Int) := by positivity
  unfold grown
  rw [hpart, hleast]
  generalize (2 : Rat) ^ (-53 : Int) = part at hsmall hzero ⊢
  generalize (2 : Rat) ^ (-1075 : Int) = least at hnone ⊢
  have hpower : ∀ n : Nat, part ^ (n + 2) ≤ 1 / 100 * part := by
    intro n
    calc part ^ (n + 2) = part ^ n * part * part := by ring
      _ ≤ 1 * (1 / 100) * part := by
          gcongr
          exact pow_le_one₀ hzero.le (by linarith)
      _ = 1 / 100 * part := by ring
  have hdelay : (1 + part) ^ 2 ≤ 1 + 16 * part := by linarith [hpower 0]
  have hmoved : (1 + part) ^ 5 * (1 + 8 * part) ≤ 1 + 16 * part := by
    linarith [hpower 0, hpower 1, hpower 2, hpower 3, hpower 4]
  have hrest : (1 + 8 * part) * (1 + part) ^ 2 + (1 + part) + 1 ≤ 8 := by
    linarith [hpower 0, hpower 1]
  calc (x * (1 + part) + ((x * (1 + part) * (share * (1 + part)) * (1 + part) + least) *
          (1 + 8 * part) * (1 + part) + least)) * (1 + part) + least
      = x * (1 + part) ^ 2 + x * share * ((1 + part) ^ 5 * (1 + 8 * part)) +
          ((1 + 8 * part) * (1 + part) ^ 2 + (1 + part) + 1) * least := by ring
    _ ≤ x * (1 + 16 * part) + x * share * (1 + 16 * part) + 8 * least := by gcongr
    _ = x * (1 + share) * (1 + 16 * part) + 8 * least := by ring
    _ ≤ most * (1 + share) * (1 + 16 * part) + 8 * least := by gcongr

/-- A delay is not below zero, and at most the greatest one with all that chance may add, up to
rounding. -/
theorem isDelay_of_delay (hfirst : b.baseDelay.Amounts first) (hmost : b.maxDelay.Amounts most)
    (hshare : b.jitter.Amounts share) {draw : Rat} (hdraw : 0 ≤ draw) (hlt : draw < 1) {d : Number}
    (hd : b.delay attempt (.real (.finite false draw)) = .ok d) :
    d.IsDelay (most * (1 + share) * (1 + 2 ^ (-49 : Int)) + 2 ^ (-1072 : Int)) := by
  obtain ⟨direction, size, hspread, hpos, hone⟩ := exists_spread hdraw hlt
  rw [delay_real, hspread] at hd
  obtain ⟨part, hparts, rfl⟩ := Result.map_eq_ok.1 hd
  obtain ⟨c, s, hc, hs, hmiddle, hmoved⟩ := exists_of_parts hparts
  obtain ⟨x, hle, hx⟩ := exists_amounts_capped hfirst hmost hc
  obtain ⟨t, other, hother, hnonneg, hbound, -⟩ := hx.exists_of_toReal hmiddle
  have hx' := hx.nonneg
  have hmost' := hmost.nonneg
  have hshare' := hshare.nonneg
  have hspan := within_span hshare hx hs hmoved
  have hspan' : 0 ≤ grown (x * (1 + 2 ^ (-53 : Int)) * (share * (1 + 2 ^ (-53 : Int)))) := by
    unfold grown
    positivity
  have hone' : (1 : Rat) ≤ 1 + 8 * 2 ^ (-53 : Int) := le_add_of_nonneg_right (by positivity)
  have hproduct := mul_within (s := direction) hspan hpos hone (Or.inr ⟨hspan', hone'⟩)
  have hproduct' := mul_nonneg hspan' (zero_le_one.trans hone')
  have hsum := add_within (s := t) hnonneg hbound hproduct (hproduct'.trans (le_grown hproduct'))
  rw [hother]
  exact isDelay_greatest (hsum.mono (grown_le hx' hle hshare')) (by positivity)

/-- There is a delay unless some integer is too large; and it is not below zero, and at most the
greatest one with all that chance may add, up to rounding. -/
theorem delay_within (hfirst : b.baseDelay.Amounts first) (hmost : b.maxDelay.Amounts most)
    (hshare : b.jitter.Amounts share) (attempt : Nat) {draw : Rat} (hdraw : 0 ≤ draw)
    (hlt : draw < 1) :
    (b.delay attempt (.real (.finite false draw)) = .error {} ↔ b.Overflows attempt) ∧
      ∀ d, b.delay attempt (.real (.finite false draw)) = .ok d →
        d.IsDelay (most * (1 + share) * (1 + 2 ^ (-49 : Int)) + 2 ^ (-1072 : Int)) :=
  ⟨delay_eq_error_iff, fun _ => isDelay_of_delay hfirst hmost hshare hdraw hlt⟩

/-- After 1023 tries the delay has long been the greatest one. After one more there is none, though the
greatest one is the same. -/
theorem delay_within_late : ∃ b : Backoff, b.maxDelay = .real (.finite false 5) ∧
    b.delay 1023 (.real (.finite false (1 / 2))) = .ok (.real (.finite false 5)) ∧
    (Number.real (.finite false 5)).IsDelay
      (5 * (1 + 1 / 4) * (1 + 2 ^ (-49 : Int)) + 2 ^ (-1072 : Int)) ∧
    b.delay 1024 (.real (.finite false (1 / 2))) = .error {} := by
  let b : Backoff := {}
  have hbase : b.baseDelay = .real (.finite false (3602879701896397 / 36028797018963968)) := by
    decide +kernel
  have hmax : b.maxDelay = .real (.finite false 5) := by decide +kernel
  have hjitter : b.jitter = .real (.finite false (1 / 4)) := by decide +kernel
  have hfirst : b.baseDelay.Amounts (3602879701896397 / 36028797018963968) :=
    hbase ▸ Amounts.real _ (by norm_num)
  have hmost : b.maxDelay.Amounts 5 := hmax ▸ Amounts.real _ (by norm_num)
  have hshare : b.jitter.Amounts (1 / 4) := hjitter ▸ Amounts.real _ (by norm_num)
  have hdelay : (b.delay 1023 (.real (.finite false (1 / 2)))).toOption =
      some (.real (.finite false 5)) := by decide +kernel
  have hwithin (attempt : Nat) := delay_within hfirst hmost hshare attempt
    (by norm_num : (0 : Rat) ≤ 1 / 2) (by norm_num)
  refine ⟨b, hmax, Act.eq_ok_of_toOption hdelay, ?_, ?_⟩
  · exact (hwithin 1023).2 _ (Act.eq_ok_of_toOption hdelay)
  · exact (hwithin 1024).1.2 (.power _ hbase (Nat.le_refl _))

end Backoff
end SchemaArtifacts
