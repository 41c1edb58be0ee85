/-!
# Hexadecimal numerals

Numerals of a fixed width in lower case, and the value of a hexadecimal digit.

## Main definitions

* `Text.hexDigit` — the digit of a number below sixteen
* `Text.hexNumeral` — the low `width` digits of a number, leading zeros kept
* `Text.hexValue?` — the value of a digit of either case

## Main results

* `length_hexNumeral` — a numeral has exactly the width asked for
* `hexValue?_hexDigit` — a written digit reads back
-/

namespace SchemaArtifacts.Text

/-- The lower-case hexadecimal digit of `n`, for `n` below sixteen. -/
def hexDigit (n : Nat) : Char :=
  if n < 10 then Char.ofNat (48 + n) else Char.ofNat (87 + n)

/-- The low `width` hexadecimal digits of `n`, the most significant first. -/
def hexNumeral : (width n : Nat) → List Char
  | 0, _ => []
  | width + 1, n => hexNumeral width (n / 16) ++ [hexDigit (n % 16)]

/-- The value of a hexadecimal digit of either case. -/
def hexValue? (c : Char) : Option Nat :=
  if '0' ≤ c ∧ c ≤ '9' then some (c.toNat - 48)
  else if 'a' ≤ c ∧ c ≤ 'f' then some (c.toNat - 87)
  else if 'A' ≤ c ∧ c ≤ 'F' then some (c.toNat - 55)
  else none

@[simp] theorem length_hexNumeral (width n : Nat) : (hexNumeral width n).length = width := by
  induction width generalizing n with
  | zero => rfl
  | succ width ih => simp [hexNumeral, ih]

theorem hexValue?_hexDigit : ∀ n < 16, hexValue? (hexDigit n) = some n := by decide

end SchemaArtifacts.Text
