import SchemaArtifacts.Number.Binary64

/-!
# Decimal text of double precision numbers

A number is written with the fewest significant digits that read back as the same number, and among
those by the decimal nearest to it. It is written without an exponent from `0.0001` up to sixteen
digits before the point.

## Main definitions

* `Decimal` — a digit string times a power of ten
* `Decimal.onGrid?` — the decimal of a given last place that reads back as a magnitude
* `Decimal.shortest` — the decimal with the fewest digits
* `Binary64.text` — the written form
* `Binary64.twoPlaces` — the form with two digits after the point
* `Binary64.ofDecimal` — reading
-/

namespace SchemaArtifacts

/-- The number `digits · 10 ^ exponent`. -/
structure Decimal where
  digits : Nat
  exponent : Int
  deriving Repr, DecidableEq

namespace Decimal

/-- The exact value. -/
def value (d : Decimal) : Rat := d.digits * (10 : Rat) ^ d.exponent

/-- The decimal rounds to the magnitude `x`. -/
def Reads (d : Decimal) (x : Rat) : Prop := Binary64.ofMagnitude false d.value = .finite false x

instance (d : Decimal) (x : Rat) : Decidable (Reads d x) :=
  inferInstanceAs (Decidable (_ = _))

/-- Of the two multiples of `10 ^ exponent` around `x` those that read back as `x`, and of these the
nearer; of two equally near, the one whose last digit is even. -/
def onGrid? (x : Rat) (exponent : Int) : Option Decimal :=
  let scaled := x / (10 : Rat) ^ exponent
  let below : Decimal := ⟨scaled.floor.toNat, exponent⟩
  let above : Decimal := ⟨below.digits + 1, exponent⟩
  let nearest : Decimal := ⟨(Number.roundEven scaled).toNat, exponent⟩
  [nearest, below, above].find? fun d => Reads d x

/-- The decimal with the fewest significant digits that reads back as the positive `x`. Seventeen
digits are always enough. -/
def shortest (x : Rat) : Decimal :=
  let top := Number.log10Floor x
  ((List.range 17).findSome? fun (k : Nat) => onGrid? x (top - k)).getD ⟨0, 0⟩

/-- Decimal digits of a natural number. -/
def digitsOf (n : Nat) : List Char := Nat.toDigits 10 n

/-- Digits without trailing zeros. -/
def significant (digits : List Char) : List Char :=
  (digits.reverse.dropWhile (· = '0')).reverse

/-- Where the number is written without an exponent: the first digit stands at most sixteen places
before the point and at most four after it. -/
def isPositional (point : Int) : Bool := -4 < point && point ≤ 16

/-- The digits with a point after the first `point` of them, zeros added as needed. -/
def positional (digits : List Char) (point : Int) : List Char :=
  if point ≤ 0 then ['0', '.'] ++ List.replicate (-point).toNat '0' ++ digits
  else
    let whole := digits.take point.toNat ++ List.replicate (point.toNat - digits.length) '0'
    let part := digits.drop point.toNat
    whole ++ '.' :: (if part.isEmpty then ['0'] else part)

/-- The digits with a point after the first of them, and an exponent of at least two digits with
its sign. -/
def scientific (digits : List Char) (exponent : Int) : List Char :=
  let mark := digits.take 1 ++ (if digits.length ≤ 1 then [] else '.' :: digits.drop 1)
  let size := digitsOf exponent.natAbs
  let sign := if exponent < 0 then '-' else '+'
  mark ++ 'e' :: sign :: List.replicate (2 - size.length) '0' ++ size

/-- The written form of a decimal. -/
def layout (d : Decimal) : List Char :=
  let digits := digitsOf d.digits
  let point := digits.length + d.exponent
  if isPositional point then positional (significant digits) point
  else scientific (significant digits) (point - 1)

end Decimal

namespace Binary64

/-- A minus sign when negative. -/
def signMark (negative : Bool) : List Char := if negative then ['-'] else []

/-- The written form. -/
def text : Binary64 → String
  | .nan => "nan"
  | .infinity negative => String.ofList (signMark negative ++ ['i', 'n', 'f'])
  | .finite negative x =>
    let digits := if x = 0 then ['0', '.', '0'] else (Decimal.shortest x).layout
    String.ofList (signMark negative ++ digits)

/-- The exact value rounded to two digits after the point, a half going to the even neighbour. -/
def twoPlaces : Binary64 → String
  | .nan => "nan"
  | .infinity negative => String.ofList (signMark negative ++ ['i', 'n', 'f'])
  | .finite negative x =>
    let hundredths := (Number.roundEven (x * 100)).toNat
    let part := Decimal.digitsOf (hundredths % 100)
    String.ofList (signMark negative ++ Decimal.digitsOf (hundredths / 100) ++
      '.' :: List.replicate (2 - part.length) '0' ++ part)

/-- The number nearest to a signed decimal. Far outside the range the digits do not matter. -/
def ofDecimal (negative : Bool) (d : Decimal) : Binary64 :=
  let point := (Decimal.digitsOf d.digits).length + d.exponent
  if d.digits = 0 then .finite negative 0
  else if 400 < point then .infinity negative
  else if point < -400 then .finite negative 0
  else ofMagnitude negative d.value

end Binary64

end SchemaArtifacts
