import SchemaArtifacts.Number.Rounding

/-!
# Double precision numbers

A double precision number is kept as its exact value. Each operation computes exactly and rounds
once: to the nearest number of 53 significant bits, or to a multiple of `2 ^ -1074` near zero, the
even one of two equally near. What rounds to `2 ^ 1024` or beyond is infinite.

## Main definitions

* `Binary64` — not a number, an infinity, or a sign and a magnitude
* `Binary64.spacing` — the distance between neighbours at a magnitude
* `Binary64.ofMagnitude` — rounding
* `Binary64.ofRat`, `Binary64.ofInt?` — rounding a rational, and an integer that is in range
* `Binary64.toRat?` — the exact value of a finite number
* `Binary64.add`, `Binary64.sub`, `Binary64.mul` — arithmetic

## Main results

* `add_comm`, `mul_comm` — sums and products do not depend on the order of their terms
-/

namespace SchemaArtifacts

/-- A double precision number. -/
inductive Binary64 where
  | nan
  | infinity (negative : Bool)
  | finite (negative : Bool) (magnitude : Rat)
  deriving DecidableEq

namespace Binary64

instance : Inhabited Binary64 := ⟨.finite false 0⟩

/-- The exponent of the spacing of the numbers around the positive magnitude `x`. -/
def scale (x : Rat) : Int := max (Number.log2Floor x - 52) (-1074)

/-- The distance between neighbours around the positive magnitude `x`. -/
def spacing (x : Rat) : Rat := (2 : Rat) ^ scale x

/-- The magnitude `x` in units of its spacing, rounded. -/
def mantissa (x : Rat) : Nat := (Number.roundEven (x / spacing x)).toNat

/-- The number of a given sign that is nearest to the magnitude `x`. -/
def ofMagnitude (negative : Bool) (x : Rat) : Binary64 :=
  if x = 0 then .finite negative 0
  else
    let rounded := mantissa x * spacing x
    if (2 : Rat) ^ (1024 : Int) ≤ rounded then .infinity negative else .finite negative rounded

/-- The number nearest to `x`; zero is positive. -/
def ofRat (x : Rat) : Binary64 := ofMagnitude (x < 0) (if x < 0 then -x else x)

/-- The number is finite. -/
def isFinite : Binary64 → Bool
  | .finite .. => true
  | _ => false

/-- The number nearest to an integer, provided that it is finite. -/
def ofInt? (n : Int) : Option Binary64 :=
  let x := ofRat n
  if x.isFinite then some x else none

/-- The exact value of a finite number. -/
def toRat? : Binary64 → Option Rat
  | .finite negative magnitude => some (if negative then -magnitude else magnitude)
  | _ => none

/-- The value is a zero of either sign. -/
def isZero (x : Binary64) : Bool := x.toRat? = some 0

protected def neg : Binary64 → Binary64
  | .nan => .nan
  | .infinity negative => .infinity !negative
  | .finite negative magnitude => .finite (!negative) magnitude

/-- The sum. Opposite infinities have none; an exact zero is negative only when both terms are. -/
protected def add : Binary64 → Binary64 → Binary64
  | .finite s x, .finite t y =>
    let sum := (if s then -x else x) + (if t then -y else y)
    if sum = 0 then .finite (s && t) 0 else ofRat sum
  | .infinity s, .infinity t => if s = t then .infinity s else .nan
  | .infinity s, .finite .. => .infinity s
  | .finite .., .infinity t => .infinity t
  | .nan, _ => .nan
  | _, .nan => .nan

protected def sub (a b : Binary64) : Binary64 := a.add b.neg

/-- The product. An infinity has none with a zero. -/
protected def mul : Binary64 → Binary64 → Binary64
  | .finite s x, .finite t y => ofMagnitude (s != t) (x * y)
  | .infinity s, .infinity t => .infinity (s != t)
  | .infinity s, .finite t y => if y = 0 then .nan else .infinity (s != t)
  | .finite s x, .infinity t => if x = 0 then .nan else .infinity (s != t)
  | .nan, _ => .nan
  | _, .nan => .nan

instance : Neg Binary64 := ⟨Binary64.neg⟩
instance : Add Binary64 := ⟨Binary64.add⟩
instance : Sub Binary64 := ⟨Binary64.sub⟩
instance : Mul Binary64 := ⟨Binary64.mul⟩

/-- The power of two with an integer exponent. -/
def twoPow (e : Int) : Binary64 :=
  if e < -1100 then .finite false 0 else ofRat ((2 : Rat) ^ e)

theorem add_comm (a b : Binary64) : a.add b = b.add a := by
  cases a <;> cases b <;> simp [Binary64.add, Rat.add_comm, Bool.and_comm]
  rename_i s t
  by_cases h : s = t
  · simp [h]
  · simp [h, Ne.symm h]

theorem mul_comm (a b : Binary64) : a.mul b = b.mul a := by
  cases a <;> cases b <;> simp [Binary64.mul, Rat.mul_comm, bne_comm]

end Binary64

end SchemaArtifacts
