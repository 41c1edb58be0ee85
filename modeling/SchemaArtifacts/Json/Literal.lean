import SchemaArtifacts.Json.Fault
import SchemaArtifacts.Json.Value
import SchemaArtifacts.Text.Hex

/-!
# Reading texts and numbers

## Main definitions

* `Json.Problem` — what keeps a text from being read, at a rest of the text
* `Json.escaped?` — the character that a one-letter escape stands for
* `Json.readText` — the rest of a text literal after its opening mark
* `Json.readNumber` — a number literal

## Main results

* `Json.readText_mark` — the closing mark ends a text
-/

namespace SchemaArtifacts.Json

/-- What keeps a text from being read, with the rest of the text where it stands. -/
abbrev Problem := ReadError (List Char)

/-- A fault at a rest of the text. -/
def fail {α : Type} (fault : Fault) (rest : List Char) : Except Problem α :=
  .error (.malformed fault rest)

/-- The character that a one-letter escape stands for. -/
def escaped? (c : Char) : Option Char :=
  if c = '"' || c = '\\' || c = '/' then some c
  else if c = 'b' then some (Char.ofNat 8)
  else if c = 'f' then some (Char.ofNat 12)
  else if c = 'n' then some '\n'
  else if c = 'r' then some '\r'
  else if c = 't' then some '\t'
  else none

/-- The code unit that four hexadecimal digits stand for. -/
def codeUnit? (a b c d : Char) : Option Nat := do
  let a ← Text.hexValue? a
  let b ← Text.hexValue? b
  let c ← Text.hexValue? c
  let d ← Text.hexValue? d
  return ((a * 16 + b) * 16 + c) * 16 + d

/-- The first code unit of a pair. -/
def isHighHalf (n : Nat) : Bool := 0xd800 ≤ n && n ≤ 0xdbff

/-- The second code unit of a pair. -/
def isLowHalf (n : Nat) : Bool := 0xdc00 ≤ n && n ≤ 0xdfff

/-- The character that a pair of code units stands for. -/
def joinHalves (high low : Nat) : Char :=
  Char.ofNat (0x10000 + (high - 0xd800) * 0x400 + (low - 0xdc00))

/-- The character of a code unit on its own; half a pair stands for no character. -/
def ofCodeUnit (n : Nat) : Char :=
  if isHighHalf n || isLowHalf n then Char.ofNat 0xfffd else Char.ofNat n

/-- The character of a code unit, joined with a second half that follows it as another escape. An
escape is only looked at if something follows its digits. -/
def joinNext (n : Nat) (rest : List Char) : Char × List Char :=
  match rest with
  | '\\' :: 'u' :: a :: b :: c :: d :: next :: last =>
    match codeUnit? a b c d with
    | some m =>
      if isHighHalf n && isLowHalf m then (joinHalves n m, next :: last) else (ofCodeUnit n, rest)
    | none => (ofCodeUnit n, rest)
  | _ => (ofCodeUnit n, rest)

/-- A code unit escape whose letter `u` leads `s`. Something must follow its digits. -/
def readCodeUnit (s : List Char) : Except Problem (Char × List Char) :=
  match s with
  | _ :: a :: b :: c :: d :: next :: rest =>
    match codeUnit? a b c d with
    | none => fail .unicodeEscape s
    | some n => .ok (joinNext n (next :: rest))
  | _ => fail .unicodeEscape s

theorem length_joinNext (n : Nat) (rest : List Char) :
    (joinNext n rest).2.length ≤ rest.length := by
  unfold joinNext
  split
  · split
    · split
      · simp only [List.length_cons]; omega
      · exact Nat.le_refl _
    · exact Nat.le_refl _
  · exact Nat.le_refl _

theorem length_readCodeUnit {s : List Char} {c : Char} {rest : List Char}
    (h : readCodeUnit s = .ok (c, rest)) : rest.length < s.length := by
  unfold readCodeUnit at h
  split at h
  · rename_i next last
    split at h
    · exact nomatch h
    · rename_i n _
      have hlen := length_joinNext n (next :: last)
      rw [Except.ok.inj h] at hlen
      simp only [List.length_cons] at hlen ⊢
      omega
  · exact nomatch h

/-- The rest of a text literal whose opening mark stands at `opening`: its characters and what
follows its closing mark. -/
def readText (opening : List Char) (s : List Char) : Except Problem (List Char × List Char) :=
  match s with
  | [] => fail .unterminated opening
  | '"' :: rest => .ok ([], rest)
  | ['\\'] => fail .unterminated opening
  | '\\' :: e :: rest =>
    if e = 'u' then
      match _ : readCodeUnit (e :: rest) with
      | .ok (c, rest') => do
        let (text, last) ← readText opening rest'
        return (c :: text, last)
      | .error problem => .error problem
    else
      match escaped? e with
      | none => fail .escape ('\\' :: e :: rest)
      | some c => do
        let (text, last) ← readText opening rest
        return (c :: text, last)
  | c :: rest =>
    if c.toNat ≤ 0x1f then fail .controlCharacter (c :: rest)
    else do
      let (text, last) ← readText opening rest
      return (c :: text, last)
termination_by s.length
decreasing_by
  · rename_i h
    have := length_readCodeUnit h
    simp only [List.length_cons] at this ⊢
    omega
  · simp only [List.length_cons]; omega
  · simp only [List.length_cons]; omega

theorem readText_mark (opening rest : List Char) :
    readText opening ('"' :: rest) = .ok ([], rest) := by
  rw [readText]

/-- The number that decimal digits stand for. -/
def naturalOf (digits : List Char) : Nat :=
  digits.foldl (fun n c => 10 * n + (c.toNat - 48)) 0

/-- The digits before the point: a zero alone, or digits that do not start with zero. -/
def wholeDigits? : List Char → Option (List Char × List Char)
  | '0' :: rest => some (['0'], rest)
  | c :: rest =>
    if c.isDigit then some (c :: rest.takeWhile Char.isDigit, rest.dropWhile Char.isDigit) else none
  | [] => none

/-- A point and the digits after it, if there are any. -/
def pointDigits : List Char → List Char × List Char
  | '.' :: rest =>
    if rest.head?.any Char.isDigit then
      (rest.takeWhile Char.isDigit, rest.dropWhile Char.isDigit)
    else ([], '.' :: rest)
  | s => ([], s)

/-- The sign of an exponent, negative or not, and what follows it. -/
def exponentSign : List Char → Bool × List Char
  | '-' :: rest => (true, rest)
  | '+' :: rest => (false, rest)
  | s => (false, s)

/-- An exponent, if there is one. -/
def exponent? : List Char → Option (Int × List Char)
  | c :: rest =>
    let (negative, digits) := exponentSign rest
    if (c = 'e' || c = 'E') && digits.head?.any Char.isDigit then
      let size : Int := naturalOf (digits.takeWhile Char.isDigit)
      some (if negative then -size else size, digits.dropWhile Char.isDigit)
    else none
  | [] => none

/-- A number without its sign. Without a point and an exponent it is an integer. -/
def readUnsigned (start : List Char) (negative : Bool) (s : List Char) :
    Except Problem (Number × List Char) :=
  match wholeDigits? s with
  | none => fail .value start
  | some (whole, rest) =>
    let (part, rest') := pointDigits rest
    let power := exponent? rest'
    if part.isEmpty && power.isNone then
      if digitLimit < whole.length then .error (.tooManyDigits whole.length)
      else
        let size : Int := naturalOf whole
        .ok (.int (if negative then -size else size), rest')
    else
      let (e, rest'') := power.getD (0, rest')
      .ok (.real (.ofDecimal negative ⟨naturalOf (whole ++ part), e - part.length⟩), rest'')

/-- A number. -/
def readNumber (s : List Char) : Except Problem (Number × List Char) :=
  match s with
  | '-' :: rest => readUnsigned s true rest
  | _ => readUnsigned s false s

end SchemaArtifacts.Json
