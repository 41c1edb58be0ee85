import SchemaArtifacts.Text.Width

/-!
# Text on a plain page

A page that is no terminal shows characters only. Sequences that would set a colour or move the
cursor are left out, so are the control characters that would ring a bell or go back, and a tab goes
on to the next column that is a multiple of eight.

## Main definitions

* `Text.withoutSequences` — text without terminal sequences
* `Text.withoutControls` — text without control characters that move back
* `Text.expandTabs` — text with spaces in the place of tabs
-/

namespace SchemaArtifacts.Text

/-- What begins a terminal sequence. -/
def sequenceStart : Char := '\x1b'

/-- What may stand between the beginning of a terminal sequence and the letter that ends it. -/
def isSequenceParameter (c : Char) : Bool := c.isDigit || c == ';' || c == '?'

/-- What follows a terminal sequence, once its first two characters are gone. -/
def afterSequence? (s : List Char) : Option (List Char) :=
  match s.dropWhile isSequenceParameter with
  | c :: rest => if c.isAlpha then some rest else none
  | [] => none

theorem length_lt_of_afterSequence? {s rest : List Char} (h : afterSequence? s = some rest) :
    rest.length < s.length := by
  have hs := (List.dropWhile_sublist isSequenceParameter (l := s)).length_le
  unfold afterSequence? at h
  split at h
  · rename_i c more he
    rw [he, List.length_cons] at hs
    split at h
    · cases h
      omega
    · cases h
  · cases h

/-- A text without terminal sequences. -/
def withoutSequences : List Char → List Char
  | [] => []
  | c :: rest =>
    match rest with
    | '[' :: more =>
      if c = sequenceStart then
        match _h : afterSequence? more with
        | some after => withoutSequences after
        | none => c :: withoutSequences ('[' :: more)
      else c :: withoutSequences ('[' :: more)
    | rest => c :: withoutSequences rest
termination_by s => s.length
decreasing_by
  all_goals simp_wf
  · have := length_lt_of_afterSequence? _h
    omega

/-- Control characters that ring a bell, go back, or go down a line or a page. -/
def movingControls : List Char := ['\x07', '\x08', '\x0b', '\x0c', '\x0d']

/-- A text without the control characters that move. -/
def withoutControls (s : List Char) : List Char := s.filter fun c => !movingControls.contains c

/-- How far apart tabs stop. -/
def tabWidth : Nat := 8

/-- A text from some column on, with spaces in the place of tabs. -/
def expandTabs (column : Nat) : List Char → List Char
  | [] => []
  | c :: rest =>
    if c = '\t' then
      let spaces := tabWidth - column % tabWidth
      List.replicate spaces ' ' ++ expandTabs (column + spaces) rest
    else if c = '\n' then c :: expandTabs 0 rest
    else c :: expandTabs (column + width c) rest

/-- A text as a plain page shows it. -/
def plain (s : String) : String := String.ofList (expandTabs 0 (withoutControls s.toList))

end SchemaArtifacts.Text
