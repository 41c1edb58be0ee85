import SchemaArtifacts.Text.Hex
import SchemaArtifacts.Text.Printable

/-!
# Quoted text

How a text is shown inside a message: between quote marks, with the backslash, the mark itself and
everything a reader could not see written as an escape. The single mark is used unless the text
holds a single mark and no double one.

## Main definitions

* `Text.quoteMark` — the mark for a text
* `Text.escapeChar` — one character inside the marks
* `Text.quote`, `Text.quoted` — the whole text, on characters and on strings
-/

namespace SchemaArtifacts.Text

/-- The single quote mark. -/
def singleMark : Char := Char.ofNat 39

/-- The double quote mark. -/
def doubleMark : Char := Char.ofNat 34

/-- The single mark, unless the text holds one and no double mark. -/
def quoteMark (s : List Char) : Char :=
  if s.contains singleMark && !s.contains doubleMark then doubleMark else singleMark

/-- One character of a quoted text: escapes for the mark, the backslash and whatever is not
printable, by the shortest of the three hexadecimal forms that holds the code point. -/
def escapeChar (mark c : Char) : List Char :=
  if c = mark || c = '\\' then ['\\', c]
  else if c = '\t' then ['\\', 't']
  else if c = '\n' then ['\\', 'n']
  else if c = '\r' then ['\\', 'r']
  else if isPrintable c then [c]
  else if c.toNat ≤ 0xff then '\\' :: 'x' :: hexNumeral 2 c.toNat
  else if c.toNat ≤ 0xffff then '\\' :: 'u' :: hexNumeral 4 c.toNat
  else '\\' :: 'U' :: hexNumeral 8 c.toNat

/-- The text between its quote marks. -/
def quote (s : List Char) : List Char :=
  let mark := quoteMark s
  mark :: s.flatMap (escapeChar mark) ++ [mark]

/-- `quote` on strings. -/
def quoted (s : String) : String := String.ofList (quote s.toList)

end SchemaArtifacts.Text
