/-!
# The width of characters

On a page of columns most characters take one column. The wide ones of East Asian scripts and the
pictures take two, and control characters and marks that combine with the character before them take
none. The tables follow the assignment of Unicode 14.

## Main definitions

* `Text.wideRanges`, `Text.combiningRanges` — the ranges of characters of two columns and of none
* `Text.width` — how many columns a character takes
-/

namespace SchemaArtifacts.Text

/-- Inclusive ranges of code points that take two columns, in ascending order. -/
def wideRanges : List (Nat × Nat) :=
  [(0x1100, 0x115f), (0x231a, 0x231b), (0x2329, 0x232a), (0x23e9, 0x23ec), (0x23f0, 0x23f0),
   (0x23f3, 0x23f3), (0x25fd, 0x25fe), (0x2614, 0x2615), (0x2648, 0x2653), (0x267f, 0x267f),
   (0x2693, 0x2693), (0x26a1, 0x26a1), (0x26aa, 0x26ab), (0x26bd, 0x26be), (0x26c4, 0x26c5),
   (0x26ce, 0x26ce), (0x26d4, 0x26d4), (0x26ea, 0x26ea), (0x26f2, 0x26f3), (0x26f5, 0x26f5),
   (0x26fa, 0x26fa), (0x26fd, 0x26fd), (0x2705, 0x2705), (0x270a, 0x270b), (0x2728, 0x2728),
   (0x274c, 0x274c), (0x274e, 0x274e), (0x2753, 0x2755), (0x2757, 0x2757), (0x2795, 0x2797),
   (0x27b0, 0x27b0), (0x27bf, 0x27bf), (0x2b1b, 0x2b1c), (0x2b50, 0x2b50), (0x2b55, 0x2b55),
   (0x2e80, 0x303e), (0x3041, 0x3247), (0x3250, 0x4dbf), (0x4e00, 0xa4c6), (0xa960, 0xa97c),
   (0xac00, 0xd7a3), (0xf900, 0xfad9), (0xfe10, 0xfe19), (0xfe30, 0xfe6b), (0xff01, 0xff60),
   (0xffe0, 0xffe6), (0x16fe0, 0x1b2fb), (0x1f004, 0x1f004), (0x1f0cf, 0x1f0cf),
   (0x1f18e, 0x1f18e), (0x1f191, 0x1f19a), (0x1f200, 0x1f320), (0x1f32d, 0x1f335),
   (0x1f337, 0x1f37c), (0x1f37e, 0x1f393), (0x1f3a0, 0x1f3ca), (0x1f3cf, 0x1f3d3),
   (0x1f3e0, 0x1f3f0), (0x1f3f4, 0x1f3f4), (0x1f3f8, 0x1f43e), (0x1f440, 0x1f440),
   (0x1f442, 0x1f4fc), (0x1f4ff, 0x1f53d), (0x1f54b, 0x1f54e), (0x1f550, 0x1f567),
   (0x1f57a, 0x1f57a), (0x1f595, 0x1f596), (0x1f5a4, 0x1f5a4), (0x1f5fb, 0x1f64f),
   (0x1f680, 0x1f6c5), (0x1f6cc, 0x1f6cc), (0x1f6d0, 0x1f6d2), (0x1f6d5, 0x1f6df),
   (0x1f6eb, 0x1f6ec), (0x1f6f4, 0x1f6fc), (0x1f7e0, 0x1f7f0), (0x1f90c, 0x1f93a),
   (0x1f93c, 0x1f945), (0x1f947, 0x1f9ff), (0x1fa70, 0x1faf6), (0x20000, 0x3134a)]

/-- Inclusive ranges of code points that take no column of their own, in ascending order. -/
def combiningRanges : List (Nat × Nat) :=
  [(0x300, 0x36f), (0x483, 0x489), (0x1ab0, 0x1aff), (0x1dc0, 0x1dff), (0x200b, 0x200f),
   (0x20d0, 0x20ff), (0xfe00, 0xfe0f), (0xfe20, 0xfe2f)]

/-- A code point is in one of some ranges. -/
def inRanges (n : Nat) (ranges : List (Nat × Nat)) : Bool :=
  ranges.any fun range => range.1 ≤ n && n ≤ range.2

/-- How many columns a character takes. -/
def width (c : Char) : Nat :=
  let n := c.toNat
  if n < 32 then 0
  else if n < 127 then 1
  else if n < 160 || inRanges n combiningRanges then 0
  else if inRanges n wideRanges then 2
  else 1

end SchemaArtifacts.Text
