import SchemaArtifacts.Text.Hex

/-!
# Text from bytes

UTF-8 is read strictly. An error covers the longest stretch that could still have begun a
character.

## Main definitions

* `Text.Utf8Error` — where and why bytes are no text, with `Text.Utf8Error.message`
* `Text.Lead.ofByte?` — what must follow the first byte of a character
* `Text.decodeUtf8` — the characters of bytes
* `Text.unifyLines` — one line feed for each way to end a line
-/

namespace SchemaArtifacts.Text

/-- Why bytes are no text. -/
inductive Utf8Reason where
  | start
  | continuation
  | truncated
  deriving Repr, DecidableEq

/-- The text of a reason. -/
def Utf8Reason.message : Utf8Reason → String
  | .start => "invalid start byte"
  | .continuation => "invalid continuation byte"
  | .truncated => "unexpected end of data"

/-- Where and why bytes are no text. -/
structure Utf8Error where
  reason : Utf8Reason
  position : Nat
  /-- How many bytes the error covers. -/
  size : Nat
  /-- The first of them. -/
  byte : Nat
  deriving Repr, DecidableEq

/-- The text of an error. -/
def Utf8Error.message (e : Utf8Error) : String :=
  let place :=
    if e.size = 1 then
      "byte 0x" ++ String.ofList (hexNumeral 2 e.byte) ++ " in position " ++ toString e.position
    else
      "bytes in position " ++ toString e.position ++ "-" ++ toString (e.position + e.size - 1)
  "'utf-8' codec can't decode " ++ place ++ ": " ++ e.reason.message

/-- What the first byte of a character says. -/
structure Lead where
  /-- Its share of the code point. -/
  bits : Nat
  /-- How many bytes follow. -/
  following : Nat
  /-- The least and the greatest value of the byte after it. -/
  least : Nat := 0x80
  greatest : Nat := 0xbf
  deriving Repr

/-- What must follow a byte; nothing for a byte that starts no character. -/
def Lead.ofByte? (b : Nat) : Option Lead :=
  if b < 0x80 then some { bits := b, following := 0 }
  else if b < 0xc2 then none
  else if b < 0xe0 then some { bits := b - 0xc0, following := 1 }
  else if b = 0xe0 then some { bits := 0, following := 2, least := 0xa0 }
  else if b = 0xed then some { bits := 0xd, following := 2, greatest := 0x9f }
  else if b < 0xf0 then some { bits := b - 0xe0, following := 2 }
  else if b = 0xf0 then some { bits := 0, following := 3, least := 0x90 }
  else if b < 0xf4 then some { bits := b - 0xf0, following := 3 }
  else if b = 0xf4 then some { bits := 4, following := 3, greatest := 0x8f }
  else none

/-- The leading bytes of `bytes`, at most `count`, that can follow in a character; only the first
of them has bounds of its own. -/
def followers (least greatest : Nat) : (count : Nat) → (bytes : List Nat) → List Nat
  | 0, _ => []
  | _, [] => []
  | count + 1, b :: rest =>
    if least ≤ b && b ≤ greatest then b :: followers 0x80 0xbf count rest else []

/-- The characters of bytes, the first of which stands at `position`. -/
def decodeFrom (position : Nat) (bytes : List Nat) : Except Utf8Error (List Char) :=
  match bytes with
  | [] => .ok []
  | b :: rest =>
    match Lead.ofByte? b with
    | none => .error ⟨.start, position, 1, b⟩
    | some lead =>
      let found := followers lead.least lead.greatest lead.following rest
      if found.length = lead.following then do
        let c := Char.ofNat (found.foldl (fun n b => n * 64 + (b - 0x80)) lead.bits)
        return c :: (← decodeFrom (position + lead.following + 1) (rest.drop lead.following))
      else
        let reason := if found.length = rest.length then .truncated else .continuation
        .error ⟨reason, position, found.length + 1, b⟩
termination_by bytes.length
decreasing_by
  simp only [List.length_drop, List.length_cons]
  omega

/-- The characters of bytes. -/
def decodeUtf8 (bytes : List UInt8) : Except Utf8Error (List Char) :=
  decodeFrom 0 (bytes.map UInt8.toNat)

/-- A line ends with a line feed, a carriage return or both; each becomes one line feed. -/
def unifyLines : List Char → List Char
  | '\r' :: '\n' :: rest => '\n' :: unifyLines rest
  | c :: rest => (if c = '\r' then '\n' else c) :: unifyLines rest
  | [] => []

end SchemaArtifacts.Text
