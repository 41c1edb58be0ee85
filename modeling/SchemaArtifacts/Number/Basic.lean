import SchemaArtifacts.Number.Decimal

/-!
# Numbers

A number is an integer of any size or a double precision number. Integers stay exact among
themselves; where the two kinds meet, the integer is rounded first, and refused when it is out of
range. The two kinds are compared by their exact values.

## Main definitions

* `Number` — the two kinds
* `Number.OutOfRange` — an integer too large to become a double precision number
* `Number.add`, `Number.sub`, `Number.mul`, `Number.twoPow` — arithmetic
* `Number.lt` — order by exact value
* `Number.least`, `Number.greatest` — the first of two numbers wins when they are equal
* `Number.text` — the written form

## Main results

* `Number.lt_int` — integers are ordered as integers
-/

namespace SchemaArtifacts

/-- An integer or a double precision number. -/
inductive Number where
  | int (n : Int)
  | real (x : Binary64)
  deriving DecidableEq

namespace Number

instance : Inhabited Number := ⟨.int 0⟩

/-- An integer is too large to become a double precision number. -/
structure OutOfRange where
  deriving Repr, DecidableEq

/-- The text of the refusal. -/
def OutOfRange.message (_ : OutOfRange) : String := "int too large to convert to float"

/-- The number as a double precision number. -/
def toReal : Number → Except OutOfRange Binary64
  | .int n => (Binary64.ofInt? n).elim (.error {}) .ok
  | .real x => .ok x

/-- An operation that is exact on integers and on double precision numbers otherwise. -/
def combine (exact : Int → Int → Int) (rounded : Binary64 → Binary64 → Binary64) :
    Number → Number → Except OutOfRange Number
  | .int m, .int n => .ok (.int (exact m n))
  | a, b => do return .real (rounded (← a.toReal) (← b.toReal))

/-- The sum. -/
def add : Number → Number → Except OutOfRange Number := combine (· + ·) (· + ·)

/-- The difference. -/
def sub : Number → Number → Except OutOfRange Number := combine (· - ·) (· - ·)

/-- The product. -/
def mul : Number → Number → Except OutOfRange Number := combine (· * ·) (· * ·)

/-- A power of two: an integer unless the exponent is negative. -/
def twoPow (exponent : Int) : Except OutOfRange Number :=
  if 0 ≤ exponent then .ok (.int (Int.pow 2 exponent.toNat))
  else if (Binary64.ofInt? exponent).isNone then .error {}
  else .ok (.real (Binary64.twoPow exponent))

/-- The exact value of a finite number. -/
def toRat? : Number → Option Rat
  | .int n => some n
  | .real x => x.toRat?

/-- The place of a number among the extended rationals: whether it is infinite, in which direction,
and its value otherwise. Nothing for what is not a number. -/
def place? : Number → Option (Int × Rat)
  | .int n => some (0, n)
  | .real .nan => none
  | .real (.infinity negative) => some (if negative then -1 else 1, 0)
  | .real (.finite negative x) => some (0, if negative then -x else x)

/-- Order by exact value. What is not a number is below and above nothing. -/
def lt (a b : Number) : Bool :=
  match a.place?, b.place? with
  | some (i, x), some (j, y) => i < j || i == j && x < y
  | _, _ => false

/-- Equality by value: `0`, `0.0` and `-0.0` are equal. -/
def sameValue (a b : Number) : Bool :=
  match a.place?, b.place? with
  | some x, some y => x == y
  | _, _ => false

/-- The lesser number; the first unless the second is strictly less. -/
def least (a b : Number) : Number := if b.lt a then b else a

/-- The greater number; the first unless the second is strictly greater. -/
def greatest (a b : Number) : Number := if a.lt b then b else a

/-- The value is zero. -/
def isZero : Number → Bool
  | .int n => n == 0
  | .real x => x.isZero

/-- The written form: the digits of an integer, the shortest text of any other number. -/
def text : Number → String
  | .int n => toString n
  | .real x => x.text

/-- The form with two digits after the point. -/
def twoPlaces (a : Number) : Except OutOfRange String := a.toReal.map Binary64.twoPlaces

@[simp] theorem lt_int (m n : Int) : lt (.int m) (.int n) = decide (m < n) := by
  simp only [lt, place?, Rat.intCast_lt_intCast, Int.lt_irrefl, decide_false, Bool.false_or,
    beq_self_eq_true, Bool.true_and]

end Number

end SchemaArtifacts
