/-!
# Reading integers

An integer may have blanks around it, a sign, digits of any script, and single low lines between
digits.

## Main definitions

* `Text.digitValue?` — the value of a digit of any script
* `Text.isSpace` — blanks of any script
* `Text.integer?` — reading
-/

namespace SchemaArtifacts.Text

/-- The code points of the zeros of all scripts. The other nine digits follow each of them. -/
def zeros : List Nat :=
  [0x30, 0x660, 0x6f0, 0x7c0, 0x966, 0x9e6, 0xa66, 0xae6, 0xb66, 0xbe6, 0xc66, 0xce6, 0xd66,
    0xde6, 0xe50, 0xed0, 0xf20, 0x1040, 0x1090, 0x17e0, 0x1810, 0x1946, 0x19d0, 0x1a80, 0x1a90,
    0x1b50, 0x1bb0, 0x1c40, 0x1c50, 0xa620, 0xa8d0, 0xa900, 0xa9d0, 0xa9f0, 0xaa50, 0xabf0,
    0xff10, 0x104a0, 0x10d30, 0x11066, 0x110f0, 0x11136, 0x111d0, 0x112f0, 0x11450, 0x114d0,
    0x11650, 0x116c0, 0x11730, 0x118e0, 0x11950, 0x11c50, 0x11d50, 0x11da0, 0x16a60, 0x16ac0,
    0x16b50, 0x1d7ce, 0x1d7d8, 0x1d7e2, 0x1d7ec, 0x1d7f6, 0x1e140, 0x1e2f0, 0x1e950, 0x1fbf0]

/-- The value of a digit of any script. -/
def digitValue? (c : Char) : Option Nat :=
  (zeros.find? fun z => z ≤ c.toNat && c.toNat < z + 10).map fun z => c.toNat - z

/-- Blanks of any script. -/
def isSpace (c : Char) : Bool :=
  let n := c.toNat
  9 ≤ n && n ≤ 13 || n = 32 || n = 0x85 || n = 0xa0 || n = 0x1680 ||
    0x2000 ≤ n && n ≤ 0x200a || n = 0x2028 || n = 0x2029 || n = 0x202f || n = 0x205f || n = 0x3000

/-- The number that digits stand for, after those already read; a low line may stand between two
digits. -/
def digitsFrom (known : Nat) : List Char → Option Nat
  | [] => some known
  | '_' :: c :: rest => do digitsFrom (known * 10 + (← digitValue? c)) rest
  | c :: rest => do digitsFrom (known * 10 + (← digitValue? c)) rest

/-- The number that a text of digits stands for. -/
def natural? : List Char → Option Nat
  | c :: rest => do digitsFrom (← digitValue? c) rest
  | [] => none

/-- The most digits that an integer may have. -/
def integerDigitLimit : Nat := 4300

/-- The integer that a text stands for. -/
def integer? (s : String) : Option Int :=
  let inner := ((s.toList.dropWhile isSpace).reverse.dropWhile isSpace).reverse
  if integerDigitLimit < inner.countP (fun c => (digitValue? c).isSome) then none
  else
    match inner with
    | '-' :: digits => (natural? digits).map fun n => -(n : Int)
    | '+' :: digits => (natural? digits).map fun n => (n : Int)
    | digits => (natural? digits).map fun n => (n : Int)

end SchemaArtifacts.Text
