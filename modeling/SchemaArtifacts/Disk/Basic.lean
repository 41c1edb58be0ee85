import SchemaArtifacts.Disk.Error
import SchemaArtifacts.Path.Root

/-!
# Disks

A disk is a table of entries by place. A place is the list of names that lead to an entry from the
top directory, which is always there.

## Main definitions

* `Entry` — a file with its content, a directory, or a link with its target
* `Disk` — a table of entries, with `Disk.get?`, `Disk.set` and `Disk.erase`
* `Disk.Aim` — what a path is followed for
* `Disk.walkBy`, `Disk.walk` — the place that a path leads to, through links
* `Disk.entryAt?`, `Disk.exists_`, `Disk.isDirectory`, `Disk.content?` — what a path leads to

## Main results

* `Disk.get?_set_self`, `Disk.get?_set_ne` — what setting an entry changes
* `Disk.get?_erase_self`, `Disk.get?_erase_ne` — what erasing an entry changes
-/

namespace SchemaArtifacts

/-- What can be found on a disk. -/
inductive Entry where
  | file (content : String)
  | directory
  | link (target : String)
  deriving Repr, DecidableEq

/-- Entries by place. -/
structure Disk where
  entries : List (List String × Entry) := []
  deriving Repr

namespace Disk

variable {d : Disk} {p q : List String} {e : Entry}

/-- The entry at a place in a table. -/
def find? (p : List String) : List (List String × Entry) → Option Entry
  | [] => none
  | (q, e) :: rest => if q = p then some e else find? p rest

/-- The entry at a place. -/
def get? (d : Disk) (p : List String) : Option Entry :=
  if p = [] then some .directory else find? p d.entries

/-- Puts an entry at a place. -/
def set (d : Disk) (p : List String) (e : Entry) : Disk :=
  { entries := (p, e) :: d.entries.filter fun entry => entry.1 ≠ p }

/-- Leaves nothing at a place. -/
def erase (d : Disk) (p : List String) : Disk :=
  { entries := d.entries.filter fun entry => entry.1 ≠ p }

private theorem find?_filter_ne {entries : List (List String × Entry)} (h : q ≠ p) :
    find? q (entries.filter fun entry => entry.1 ≠ p) = find? q entries := by
  induction entries with
  | nil => rfl
  | cons x rest ih =>
    by_cases hx : x.1 = p
    · simp only [hx, ne_eq, not_true_eq_false, decide_false, Bool.false_eq_true, not_false_eq_true,
        List.filter_cons_of_neg, ih, find?]
      rw [if_neg (Ne.symm h)]
    · simp only [ne_eq, hx, not_false_eq_true, decide_true, List.filter_cons_of_pos, find?, ih]

private theorem find?_filter_self {entries : List (List String × Entry)} :
    find? p (entries.filter fun entry => entry.1 ≠ p) = none := by
  induction entries with
  | nil => rfl
  | cons x rest ih =>
    by_cases hx : x.1 = p
    · simpa [hx] using ih
    · simpa [hx, find?] using ih

@[simp] theorem get?_nil (d : Disk) : d.get? [] = some .directory := rfl

@[simp] theorem get?_set_self (h : p ≠ []) : (d.set p e).get? p = some e := by
  simp [get?, set, h, find?]

theorem get?_set_ne (h : q ≠ p) : (d.set p e).get? q = d.get? q := by
  unfold get? set
  split
  · rfl
  · rw [find?, if_neg (Ne.symm h), find?_filter_ne h]

@[simp] theorem get?_erase_self (h : p ≠ []) : (d.erase p).get? p = none := by
  unfold get? erase
  rw [if_neg h, find?_filter_self]

theorem get?_erase_ne (h : q ≠ p) : (d.erase p).get? q = d.get? q := by
  unfold get? erase
  split
  · rfl
  · rw [find?_filter_ne h]

/-- The most links that a path may lead through. -/
def linkLimit : Nat := 40

/-- The most bytes that a name may have. -/
def nameLimit : Nat := 255

/-- What a path is followed for. -/
inductive Aim where
  /-- The entry at the path itself; a link there is not followed. -/
  | itself
  /-- What the path leads to, through links. -/
  | behind
  /-- A file that is to be written, through links. -/
  | writing
  deriving Repr, DecidableEq

/-- The names that the target of a link leads through. A slash at its end leads into what is before,
as an empty last name, and so does a dot after a slash. -/
def stepsOf (target : List Char) : List String :=
  AbsolutePath.partsOf target ++
    match target.reverse.takeWhile (· != '/') with
    | [] => [""]
    | ['.'] => ["."]
    | _ => []

/-- The place that `rest` leads to from the directory at `here`; `follow` goes on behind a link. The
last name may lead to nothing. An empty name or a dot leads nowhere else, but only from a directory;
what is to be written is no directory. -/
def walkBy (d : Disk) (aim : Aim)
    (follow : (here rest : List String) → Except DiskError.Cause (List String)) :
    (here rest : List String) → Except DiskError.Cause (List String)
  | here, [] => .ok here
  | here, name :: rest =>
    if aim = .writing && rest = [""] then .error .isDirectory
    else if nameLimit < name.utf8ByteSize then .error .nameTooLong
    else if name = "" || name = "." then walkBy d aim follow here rest
    else if name = ".." then walkBy d aim follow here.dropLast rest
    else
      match d.get? (here ++ [name]) with
      | none => if rest = [] then .ok (here ++ [name]) else .error .missing
      | some .directory => walkBy d aim follow (here ++ [name]) rest
      | some (.file _) => if rest = [] then .ok (here ++ [name]) else .error .notDirectory
      | some (.link target) =>
        if rest = [] && aim = .itself then .ok (here ++ [name])
        else
          let start := if target.toList.head? = some '/' then [] else here
          follow start (stepsOf target.toList ++ rest)

/-- The place that `rest` leads to from the directory at `here`, through at most `links` links. -/
def walk (d : Disk) (aim : Aim) :
    (links : Nat) → (here rest : List String) → Except DiskError.Cause (List String)
  | 0 => walkBy d aim fun _ _ => .error .tooManyLinks
  | links + 1 => walkBy d aim (walk d aim links)

/-- The most bytes that a path may have, the mark of its end included. -/
def pathLimit : Nat := 4096

/-- The place that a path leads to. -/
def locate (d : Disk) (aim : Aim) (p : AbsolutePath) : Except DiskError.Cause (List String) :=
  if pathLimit ≤ p.toString.utf8ByteSize then .error .nameTooLong
  else d.walk aim linkLimit [] p.parts

/-- The entry that a path leads to, through links. -/
def entryAt? (d : Disk) (p : AbsolutePath) : Option Entry :=
  match d.locate .behind p with
  | .ok place => d.get? place
  | .error _ => none

/-- A path leads to an entry. -/
def exists_ (d : Disk) (p : AbsolutePath) : Bool := (d.entryAt? p).isSome

/-- A path leads to a directory. -/
def isDirectory (d : Disk) (p : AbsolutePath) : Bool := d.entryAt? p = some .directory

/-- The content of the file that a path leads to. -/
def content? (d : Disk) (p : AbsolutePath) : Option String :=
  match d.entryAt? p with
  | some (.file content) => some content
  | _ => none

/-- The places below a place, each with its entry. -/
def below (d : Disk) (p : List String) : List (List String × Entry) :=
  d.entries.filter fun entry => p.isPrefixOf entry.1 && entry.1 ≠ p

end Disk

end SchemaArtifacts
