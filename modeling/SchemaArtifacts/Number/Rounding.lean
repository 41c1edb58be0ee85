/-!
# Rounding to the nearest integer

## Main definitions

* `Number.roundEven` — the nearest integer, the even one when two are equally near
* `Number.log2Floor`, `Number.log10Floor` — the exponent of the power just below a positive number

## Main results

* `floor_le_roundEven` — rounding moves no further down than to the integer below
-/

namespace SchemaArtifacts.Number

/-- The integer nearest to `x`; of two equally near ones, the even one. -/
def roundEven (x : Rat) : Int :=
  let below := x.floor
  if x - below < 1 / 2 then below
  else if 1 / 2 < x - below then below + 1
  else below + below % 2

theorem floor_le_roundEven (x : Rat) : x.floor ≤ roundEven x := by
  unfold roundEven
  dsimp only
  split
  · exact Int.le_refl _
  · split <;> omega

/-- The greatest `e` with `2 ^ e ≤ x`, for positive `x`: the difference of the logarithms above and
below the fraction line, or one less. -/
def log2Floor (x : Rat) : Int :=
  let e : Int := Nat.log2 x.num.natAbs - Nat.log2 x.den
  if (2 : Rat) ^ e ≤ x then e else e - 1

/-- The greatest `e` with `10 ^ e ≤ x`, for positive `x`: the difference of the numbers of digits
above and below the fraction line, or one less. -/
def log10Floor (x : Rat) : Int :=
  let digits (n : Nat) : Int := (Nat.toDigits 10 n).length
  let e := digits x.num.natAbs - digits x.den
  if (10 : Rat) ^ e ≤ x then e else e - 1

end SchemaArtifacts.Number
