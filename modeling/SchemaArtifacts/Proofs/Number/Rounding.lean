import Mathlib.Algebra.Order.Field.Power
import Mathlib.Algebra.Order.Field.Rat
import Mathlib.Tactic.FieldSimp
import Mathlib.Tactic.Linarith
import Mathlib.Tactic.Positivity
import Mathlib.Tactic.Ring
import SchemaArtifacts.Number.Basic

/-!
# How far rounding moves a number

A double precision number is at most half a spacing away from the number that it stands for, and the
spacing is a small part of the number, except close to zero, where it is constant.

## Main definitions

* `Binary64.rounded` — the value that a magnitude is rounded to, however large
* `Number.IsTooLarge` — an integer with no double precision number near it

## Main results

* `Number.zpow_log2Floor_le`, `Number.lt_zpow_log2Floor_add_one` — the power of two below a number
* `Binary64.rounded_le`, `Binary64.rounded_le_of_one_le` — rounding adds at most a small part
* `Number.isTooLarge_iff`, `Number.isTooLarge_two_pow_iff` — which integers are too large
-/

namespace SchemaArtifacts

namespace Number

/-! ## The nearest integer -/

theorem roundEven_le (x : Rat) : (roundEven x : Rat) ≤ x + 1 / 2 := by
  have hfloor : (x.floor : Rat) ≤ x := Rat.floor_le x
  unfold roundEven
  dsimp only
  split
  · linarith
  · rename_i hhalf
    split
    · push_cast
      linarith
    · have hmod : x.floor % 2 ≤ 1 := by omega
      have hcast : ((x.floor % 2 : Int) : Rat) ≤ 1 := by exact_mod_cast hmod
      push_cast at hcast ⊢
      linarith

theorem roundEven_nonneg {x : Rat} (h : 0 ≤ x) : 0 ≤ roundEven x :=
  le_trans (Rat.le_floor_iff.2 (by simpa using h)) (floor_le_roundEven x)

/-- A number less than half away from an integer is not rounded beyond it. -/
theorem roundEven_le_of_lt {x : Rat} {n : Int} (h : x < n + 1 / 2) : roundEven x ≤ n := by
  have hlt : (roundEven x : Rat) < n + 1 := by linarith [roundEven_le x]
  exact Int.lt_add_one_iff.1 (by exact_mod_cast hlt)

/-- A number half or more beyond an odd integer is rounded up. -/
theorem lt_roundEven_of_odd {x : Rat} {n : Int} (hodd : n % 2 = 1) (h : n + 1 / 2 ≤ x) :
    n + 1 ≤ roundEven x := by
  have hle : n ≤ x.floor := Rat.le_floor_iff.2 (by linarith)
  rcases hle.lt_or_eq with hlt | heq
  · exact le_trans hlt (floor_le_roundEven x)
  · -- The tie goes to the even neighbour, which is the one above.
    unfold roundEven
    dsimp only
    rw [← heq, if_neg (by linarith)]
    split
    · exact le_refl _
    · omega

/-! ## The power of two below a number -/

variable {x : Rat}

theorem zpow_natLog2_le {n : Nat} (h : n ≠ 0) : (2 : Rat) ^ (Nat.log2 n : Int) ≤ n := by
  rw [zpow_natCast]
  exact_mod_cast Nat.log2_self_le h

theorem lt_zpow_natLog2_add_one (n : Nat) : (n : Rat) < 2 ^ ((Nat.log2 n : Int) + 1) := by
  have hlt : n < 2 ^ (Nat.log2 n + 1) := Nat.lt_log2_self
  rw [← Nat.cast_one, ← Nat.cast_add, zpow_natCast]
  exact_mod_cast hlt

/-- The fraction line cuts a positive number into two natural numbers. -/
theorem mul_den_eq_natAbs_num (h : 0 < x) : x * x.den = (x.num.natAbs : Rat) := by
  have hnum : (x.num.natAbs : Int) = x.num := Int.natAbs_of_nonneg (Rat.num_nonneg.2 h.le)
  rw [Rat.mul_den_eq_num, ← hnum]
  rfl

/-- The logarithms above and below the fraction line tell the size of a positive number up to a factor
of two, downwards and upwards. -/
theorem zpow_log2_sub_le (h : 0 < x) :
    (2 : Rat) ^ ((Nat.log2 x.num.natAbs : Int) - Nat.log2 x.den - 1) ≤ x := by
  have hnum : x.num.natAbs ≠ 0 := by
    rw [Int.natAbs_ne_zero]
    exact (Rat.num_pos.2 h).ne'
  have hpos : (0 : Rat) < 2 ^ ((Nat.log2 x.den : Int) + 1) := by positivity
  refine le_of_mul_le_mul_right ?_ hpos
  calc (2 : Rat) ^ ((Nat.log2 x.num.natAbs : Int) - Nat.log2 x.den - 1) *
          2 ^ ((Nat.log2 x.den : Int) + 1)
      = 2 ^ (Nat.log2 x.num.natAbs : Int) := by
        rw [← zpow_add₀ (by norm_num)]
        congr 1
        ring
    _ ≤ x.num.natAbs := zpow_natLog2_le hnum
    _ = x * x.den := (mul_den_eq_natAbs_num h).symm
    _ ≤ x * 2 ^ ((Nat.log2 x.den : Int) + 1) :=
        mul_le_mul_of_nonneg_left (lt_zpow_natLog2_add_one x.den).le h.le

theorem lt_zpow_log2_sub_add_one (h : 0 < x) :
    x < (2 : Rat) ^ ((Nat.log2 x.num.natAbs : Int) - Nat.log2 x.den + 1) := by
  have hpos : (0 : Rat) < 2 ^ (Nat.log2 x.den : Int) := by positivity
  refine lt_of_mul_lt_mul_right ?_ hpos.le
  calc x * 2 ^ (Nat.log2 x.den : Int)
      ≤ x * x.den := mul_le_mul_of_nonneg_left (zpow_natLog2_le x.den_ne_zero) h.le
    _ = x.num.natAbs := mul_den_eq_natAbs_num h
    _ < 2 ^ ((Nat.log2 x.num.natAbs : Int) + 1) := lt_zpow_natLog2_add_one _
    _ = (2 : Rat) ^ ((Nat.log2 x.num.natAbs : Int) - Nat.log2 x.den + 1) *
          2 ^ (Nat.log2 x.den : Int) := by
        rw [← zpow_add₀ (by norm_num)]
        congr 1
        ring

theorem zpow_log2Floor_le (h : 0 < x) : (2 : Rat) ^ log2Floor x ≤ x := by
  unfold log2Floor
  dsimp only
  split
  · assumption
  · exact zpow_log2_sub_le h

theorem lt_zpow_log2Floor_add_one (h : 0 < x) : x < (2 : Rat) ^ (log2Floor x + 1) := by
  unfold log2Floor
  dsimp only
  split
  · exact lt_zpow_log2_sub_add_one h
  · rw [Int.sub_add_cancel]
    exact not_le.1 ‹_›

/-- There is one such power. -/
theorem log2Floor_eq {e : Int} (hle : (2 : Rat) ^ e ≤ x) (hlt : x < 2 ^ (e + 1)) :
    log2Floor x = e := by
  have hpos : 0 < x := lt_of_lt_of_le (by positivity) hle
  have htwo : (1 : Rat) < 2 := by norm_num
  have hlower : log2Floor x < e + 1 :=
    (zpow_lt_zpow_iff_right₀ htwo).1 ((zpow_log2Floor_le hpos).trans_lt hlt)
  have hupper : e < log2Floor x + 1 :=
    (zpow_lt_zpow_iff_right₀ htwo).1 (hle.trans_lt (lt_zpow_log2Floor_add_one hpos))
  omega

end Number

namespace Binary64

open Number

variable {x : Rat}

/-! ## Rounding a magnitude -/

theorem spacing_pos (x : Rat) : 0 < spacing x := by
  unfold spacing
  positivity

/-- The value that a magnitude is rounded to, however large. -/
def rounded (x : Rat) : Rat := if x = 0 then 0 else mantissa x * spacing x

theorem rounded_zero : rounded 0 = 0 := if_pos rfl

theorem rounded_of_pos (h : 0 < x) : rounded x = roundEven (x / spacing x) * spacing x := by
  have hnonneg : 0 ≤ roundEven (x / spacing x) :=
    roundEven_nonneg (div_nonneg h.le (spacing_pos x).le)
  have hcast : (((roundEven (x / spacing x)).toNat : Int) : Rat) = roundEven (x / spacing x) := by
    rw [Int.toNat_of_nonneg hnonneg]
  rw [rounded, if_neg h.ne', mantissa, ← hcast]
  rfl

theorem rounded_nonneg (x : Rat) : 0 ≤ rounded x := by
  unfold rounded
  split
  · exact le_refl _
  · exact mul_nonneg (Nat.cast_nonneg _) (spacing_pos x).le

/-- A magnitude becomes the number of its rounded value, or infinite. -/
theorem ofMagnitude_eq (negative : Bool) (x : Rat) : ofMagnitude negative x =
    if (2 : Rat) ^ (1024 : Int) ≤ rounded x then .infinity negative
    else .finite negative (rounded x) := by
  unfold ofMagnitude rounded
  split
  · rw [if_neg (not_le.2 (by positivity))]
  · rfl

/-- Rounding moves a number by half a spacing at most. -/
theorem rounded_le_add (h : 0 < x) : rounded x ≤ x + spacing x / 2 := by
  have hspacing := spacing_pos x
  calc rounded x = roundEven (x / spacing x) * spacing x := rounded_of_pos h
    _ ≤ (x / spacing x + 1 / 2) * spacing x :=
        mul_le_mul_of_nonneg_right (roundEven_le _) hspacing.le
    _ = x + spacing x / 2 := by field_simp

/-- Away from zero the spacing is a small part of a number. -/
theorem half_spacing_le (h : 0 < x) (hscale : scale x = log2Floor x - 52) :
    spacing x / 2 ≤ x * 2 ^ (-53 : Int) := by
  have hspacing : spacing x / 2 = 2 ^ log2Floor x * 2 ^ (-53 : Int) := by
    rw [spacing, hscale, div_eq_mul_inv, ← zpow_neg_one, ← zpow_add₀ (by norm_num),
      ← zpow_add₀ (by norm_num)]
    congr 1
    ring
  rw [hspacing]
  exact mul_le_mul_of_nonneg_right (zpow_log2Floor_le h) (by positivity)

/-- Rounding adds at most a small part of a number, or next to nothing. -/
theorem rounded_le (h : 0 ≤ x) : rounded x ≤ x * (1 + 2 ^ (-53 : Int)) + 2 ^ (-1075 : Int) := by
  rcases h.eq_or_lt with rfl | hpos
  · rw [rounded_zero]
    positivity
  · have hhalf : spacing x / 2 ≤ x * 2 ^ (-53 : Int) + 2 ^ (-1075 : Int) := by
      rcases max_choice (log2Floor x - 52) (-1074) with hscale | hscale
      · exact (half_spacing_le hpos hscale).trans (le_add_of_nonneg_right (by positivity))
      · have hspacing : spacing x / 2 = 2 ^ (-1075 : Int) := by
          rw [spacing, scale, hscale, div_eq_mul_inv, ← zpow_neg_one, ← zpow_add₀ (by norm_num)]
          rfl
        rw [hspacing]
        exact le_add_of_nonneg_left (by positivity)
    calc rounded x ≤ x + spacing x / 2 := rounded_le_add hpos
      _ ≤ x + (x * 2 ^ (-53 : Int) + 2 ^ (-1075 : Int)) := add_le_add (le_refl x) hhalf
      _ = x * (1 + 2 ^ (-53 : Int)) + 2 ^ (-1075 : Int) := by rw [mul_one_add, add_assoc]

/-- Numbers from one on are far from zero. -/
theorem rounded_le_of_one_le (h : 1 ≤ x) : rounded x ≤ x * (1 + 2 ^ (-53 : Int)) := by
  have hpos : 0 < x := zero_lt_one.trans_le h
  have hlog : 0 < log2Floor x + 1 := by
    refine (zpow_lt_zpow_iff_right₀ (by norm_num : (1 : Rat) < 2)).1 ?_
    rw [zpow_zero]
    exact h.trans_lt (lt_zpow_log2Floor_add_one hpos)
  have hscale : scale x = log2Floor x - 52 := by
    unfold scale
    omega
  calc rounded x ≤ x + spacing x / 2 := rounded_le_add hpos
    _ ≤ x + x * 2 ^ (-53 : Int) := add_le_add (le_refl x) (half_spacing_le hpos hscale)
    _ = x * (1 + 2 ^ (-53 : Int)) := (mul_one_add x _).symm

/-! ## Integers that are too large -/

/-- The spacing of the largest numbers. -/
theorem spacing_eq {e : Int} (hmin : -1074 ≤ e - 52) (hle : (2 : Rat) ^ e ≤ x)
    (hlt : x < 2 ^ (e + 1)) : spacing x = 2 ^ (e - 52) := by
  rw [spacing, scale, log2Floor_eq hle hlt, max_eq_left hmin]

theorem two_zpow_eq_mul (k : Int) (n : Nat) : (2 : Rat) ^ (k + n) = 2 ^ n * 2 ^ k := by
  rw [zpow_add₀ (by norm_num), zpow_natCast, Rat.mul_comm]

/-- A power of two is not rounded down, nor is what is above it. -/
theorem zpow_le_rounded {k : Int} (hmin : -1022 ≤ k) (h : (2 : Rat) ^ k ≤ x) :
    (2 : Rat) ^ k ≤ rounded x := by
  have htwo : (1 : Rat) < 2 := by norm_num
  have hpos : 0 < x := lt_of_lt_of_le (by positivity) h
  have hk : k ≤ log2Floor x := Int.lt_add_one_iff.1
    ((zpow_lt_zpow_iff_right₀ htwo).1 (h.trans_lt (lt_zpow_log2Floor_add_one hpos)))
  have hspacing : spacing x = 2 ^ (log2Floor x - 52) :=
    spacing_eq (by omega) (zpow_log2Floor_le hpos) (lt_zpow_log2Floor_add_one hpos)
  have hunits : (2 : Rat) ^ (52 : Int) ≤ x / spacing x := by
    rw [le_div_iff₀ (spacing_pos x), hspacing, ← zpow_add₀ (by norm_num), add_sub_cancel]
    exact zpow_log2Floor_le hpos
  have hmantissa : (2 ^ 52 : Int) ≤ roundEven (x / spacing x) :=
    le_trans (Rat.le_floor_iff.2 (by exact_mod_cast hunits)) (floor_le_roundEven _)
  calc (2 : Rat) ^ k ≤ 2 ^ log2Floor x := zpow_le_zpow_right₀ htwo.le hk
    _ = 2 ^ (52 : Int) * spacing x := by
        rw [hspacing, ← zpow_add₀ (by norm_num), add_sub_cancel]
    _ ≤ roundEven (x / spacing x) * spacing x :=
        mul_le_mul_of_nonneg_right (by exact_mod_cast hmantissa) (spacing_pos x).le
    _ = rounded x := (rounded_of_pos hpos).symm

/-- What is half a spacing or more below `2 ^ 1024` is rounded to less, and all else is not. -/
theorem le_rounded_iff (h : 0 ≤ x) :
    (2 : Rat) ^ (1024 : Int) ≤ rounded x ↔ (2 : Rat) ^ (1024 : Int) - 2 ^ (970 : Int) ≤ x := by
  obtain ⟨unit, hunit⟩ : ∃ unit, (2 : Rat) ^ (970 : Int) = unit := ⟨_, rfl⟩
  have hpos : 0 < unit := by
    rw [← hunit]
    positivity
  have htop : (2 : Rat) ^ (1024 : Int) = 2 ^ 54 * unit := by rw [← hunit, ← two_zpow_eq_mul]; rfl
  have hhalf : (2 : Rat) ^ (1023 : Int) = 2 ^ 53 * unit := by rw [← hunit, ← two_zpow_eq_mul]; rfl
  have hlast : (2 : Rat) ^ (971 : Int) = 2 * unit := by
    rw [← hunit, ← zpow_one_add₀ (by norm_num)]
    rfl
  -- Only between half of `2 ^ 1024` and all of it there is a question.
  rcases lt_or_ge x (2 ^ (1023 : Int)) with hsmall | hlarge
  · refine iff_of_false (not_le.2 ?_) (not_le.2 ?_)
    · have hpart : x * (1 + 2 ^ (-53 : Int)) ≤ 2 ^ 53 * unit * (1 + 2 ^ (-53 : Int)) :=
        mul_le_mul_of_nonneg_right (hhalf ▸ hsmall.le) (by positivity)
      have hsum : 2 ^ 53 * unit * (1 + 2 ^ (-53 : Int)) = 2 ^ 53 * unit + unit := by
        norm_num
        ring
      have hleast : (2 : Rat) ^ (-1075 : Int) ≤ unit :=
        hunit ▸ zpow_le_zpow_right₀ (by norm_num) (by norm_num)
      have hrounded := rounded_le h
      rw [htop]
      linarith only [hrounded, hpart, hsum, hleast, hpos]
    · rw [hhalf] at hsmall
      rw [htop, hunit]
      linarith only [hsmall, hpos]
  rcases le_or_gt ((2 : Rat) ^ (1024 : Int)) x with hle | hlt
  · exact iff_of_true (zpow_le_rounded (by norm_num) hle) ((sub_le_self _ (by positivity)).trans hle)
  have hspacing : spacing x = 2 * unit := by
    rw [spacing_eq (by norm_num) hlarge (by exact hlt), ← hlast]
    rfl
  have hxpos : 0 < x := lt_of_lt_of_le (by positivity) hlarge
  rw [rounded_of_pos hxpos, hspacing, htop, hunit]
  constructor
  · intro hrounded
    by_contra hlow
    have hunits : x / (2 * unit) < ((2 ^ 53 - 1 : Int) : Rat) + 1 / 2 := by
      rw [div_lt_iff₀ (by positivity)]
      push_cast
      linarith
    have hmantissa : (roundEven (x / (2 * unit)) : Rat) ≤ ((2 ^ 53 - 1 : Int) : Rat) := by
      exact_mod_cast roundEven_le_of_lt hunits
    have hproduct := mul_le_mul_of_nonneg_right hmantissa (by positivity : 0 ≤ 2 * unit)
    push_cast at hproduct
    linarith only [hproduct, hrounded, hpos]
  · intro hhigh
    have hunits : ((2 ^ 53 - 1 : Int) : Rat) + 1 / 2 ≤ x / (2 * unit) := by
      rw [le_div_iff₀ (by positivity)]
      push_cast
      linarith
    have hmantissa : (((2 ^ 53 - 1) + 1 : Int) : Rat) ≤ roundEven (x / (2 * unit)) := by
      exact_mod_cast lt_roundEven_of_odd (by norm_num) hunits
    have hproduct := mul_le_mul_of_nonneg_right hmantissa (by positivity : 0 ≤ 2 * unit)
    push_cast at hproduct
    linarith only [hproduct]

/-- An integer becomes the number of its rounded size, if that is in range. -/
theorem ofInt?_eq (n : Int) : ofInt? n =
    if (2 : Rat) ^ (1024 : Int) ≤ rounded n.natAbs then none
    else some (.finite (decide (n < 0)) (rounded n.natAbs)) := by
  have hsign : decide ((n : Rat) < 0) = decide (n < 0) := by simp
  have hsize : (if (n : Rat) < 0 then -(n : Rat) else n) = (n.natAbs : Rat) := by
    rw [Nat.cast_natAbs, Int.cast_abs]
    split
    · rw [abs_of_neg ‹_›]
    · rw [abs_of_nonneg (not_lt.1 ‹_›)]
  unfold ofInt? ofRat
  simp only [hsign, hsize, ofMagnitude_eq]
  split <;> rfl

end Binary64

namespace Number

open Binary64

/-- An integer has no double precision number near it: its size is at least half a spacing below
`2 ^ 1024`. -/
def IsTooLarge : Number → Prop
  | .int n => (2 : Rat) ^ (1024 : Int) - 2 ^ (970 : Int) ≤ n.natAbs
  | .real _ => False

/-- Only integers that are too large do not become double precision numbers. -/
theorem isTooLarge_iff {a : Number} : a.IsTooLarge ↔ a.toReal = .error {} := by
  cases a with
  | int n =>
    rw [IsTooLarge, ← le_rounded_iff (Nat.cast_nonneg _), toReal, ofInt?_eq]
    split
    · exact iff_of_true ‹_› rfl
    · exact iff_of_false ‹_› (by simp)
  | real x => exact iff_of_false id (by simp [toReal])

theorem isTooLarge_two_pow_iff {n : Nat} : (Number.int (Int.pow 2 n)).IsTooLarge ↔ 1024 ≤ n := by
  have hpow : (((Int.pow 2 n).natAbs : Nat) : Rat) = 2 ^ (n : Int) := by
    have hnat : (Int.pow 2 n).natAbs = 2 ^ n := Int.natAbs_pow 2 n
    rw [hnat, zpow_natCast]
    exact Nat.cast_pow 2 n
  have htwo : (1 : Rat) < 2 := by norm_num
  rw [IsTooLarge, hpow]
  constructor
  · intro h
    by_contra hlow
    have hpower : (2 : Rat) ^ (n : Int) ≤ 2 ^ (1023 : Int) :=
      zpow_le_zpow_right₀ htwo.le (by omega)
    have hdouble : (2 : Rat) ^ (1024 : Int) = 2 ^ (1023 : Int) + 2 ^ (1023 : Int) := by
      rw [← two_mul, ← zpow_one_add₀ (by norm_num)]
      rfl
    have hunit : (2 : Rat) ^ (970 : Int) < 2 ^ (1023 : Int) :=
      zpow_lt_zpow_right₀ htwo (by norm_num)
    rw [hdouble] at h
    refine absurd h (not_le.2 ?_)
    calc (2 : Rat) ^ (n : Int) ≤ 2 ^ (1023 : Int) := hpower
      _ < 2 ^ (1023 : Int) + (2 ^ (1023 : Int) - 2 ^ (970 : Int)) :=
          lt_add_of_pos_right _ (sub_pos.2 hunit)
      _ = 2 ^ (1023 : Int) + 2 ^ (1023 : Int) - 2 ^ (970 : Int) := (add_sub_assoc _ _ _).symm
  · intro h
    exact (sub_le_self _ (by positivity)).trans (zpow_le_zpow_right₀ htwo.le (by omega))

end Number
end SchemaArtifacts
