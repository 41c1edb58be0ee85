import SchemaArtifacts.Proofs.Disk.Below

/-!
# Disks without links

On a disk without links it makes no difference what a path is followed for, unless a file is to be
written. On a disk where every entry lies in a directory, as on any real one, what a path leads to
is told by the entry at its place alone.

## Main definitions

* `Disk.IsTree` — every entry lies in a directory

## Main results

* `Disk.walk_itself` — without links, what a path is followed for makes no difference
* `Disk.entryAt?_join` — what a path below a root leads to
* `Disk.IsTree.set`, `Disk.IsTree.erase`, `Disk.GrowsToward.isTree` — entries stay in directories
-/

namespace SchemaArtifacts

/-- The directory that holds a path is written in no more bytes than the path. -/
theorem AbsolutePath.utf8ByteSize_toString_parent (p : AbsolutePath) :
    p.parent.toString.utf8ByteSize ≤ p.toString.utf8ByteSize := by
  obtain ⟨doubled, parts⟩ := p
  rcases List.eq_nil_or_concat' parts with rfl | ⟨above, name, rfl⟩
  · exact Nat.le_refl _
  · rcases List.eq_nil_or_concat' above with rfl | ⟨init, last, rfl⟩
    · simp only [AbsolutePath.parent, AbsolutePath.toString, List.nil_append, List.dropLast_singleton,
        String.intercalate_nil, String.utf8ByteSize_append, String.utf8ByteSize_empty]
      omega
    · have hsplit := String.intercalate_append_of_ne_nil (s := "/") (l := init ++ [last])
        (m := [name]) (by simp) (by simp)
      simp only [AbsolutePath.parent, AbsolutePath.toString, List.dropLast_concat, hsplit,
        String.utf8ByteSize_append]
      omega

namespace Disk

variable {d d' : Disk} {aim aim' : Aim} {links : Nat} {here rest place names top : List String}
  {p root : AbsolutePath} {e : Entry} {name : String}

/-- Without links, what a path is followed for makes no difference, unless something is to be
written. -/
theorem walk_itself (hfree : IsLinkFree d []) :
    d.walk .itself links here rest = d.walk .behind links here rest := by
  induction rest generalizing here with
  | nil => rw [walk_nil, walk_nil]
  | cons name rest ih =>
    have hlink : ∀ target, d.get? (here ++ [name]) ≠ some (.link target) :=
      fun target => hfree _ target List.nil_prefix
    have hitself : ¬ (Aim.itself = .writing ∧ rest = [""]) := by simp
    have hbehind : ¬ (Aim.behind = .writing ∧ rest = [""]) := by simp
    rw [walk_cons, walk_cons, if_neg hitself, if_neg hbehind, ih, ih]
    cases hentry : d.get? (here ++ [name]) with
    | none => rfl
    | some e =>
      cases e with
      | directory => simp only [ih]
      | file content => rfl
      | link target => exact absurd hentry (hlink target)

theorem locate_itself (hfree : IsLinkFree d []) (p : AbsolutePath) :
    d.locate .itself p = d.locate .behind p := by
  unfold locate
  rw [walk_itself hfree]

theorem IsShort.parent (h : IsShort p) : IsShort p.parent :=
  Nat.lt_of_le_of_lt p.utf8ByteSize_toString_parent h

theorem exists_iff : d.exists_ p ↔
    ∃ place e, d.locate .behind p = .ok place ∧ d.get? place = some e := by
  unfold exists_ entryAt?
  cases d.locate .behind p with
  | error cause => simp
  | ok place => simp [Option.isSome_iff_exists]

theorem isDirectory_iff : d.isDirectory p ↔
    ∃ place, d.locate .behind p = .ok place ∧ d.get? place = some .directory := by
  unfold isDirectory entryAt?
  cases d.locate .behind p with
  | error cause => simp
  | ok place => simp

theorem RootAt.locate (h : RootAt d root top) (hs : IsShort root) :
    d.locate .behind root = .ok top := by
  rw [locate_of_isShort hs, h.follows.walk_eq]

/-- A directory that a path leads to is one that a root leads to. -/
theorem exists_rootAt_of_isDirectory (h : d.isDirectory p) : ∃ top, RootAt d p top ∧ IsShort p := by
  obtain ⟨top, hlocate, hdirectory⟩ := isDirectory_iff.1 h
  exact ⟨top, rootAt_of_locate hlocate hdirectory, isShort_of_locate hlocate⟩

/-- What a path leads to lies in a directory that the parent of the path leads to. -/
theorem isDirectory_parent_of_locate (hne : p.parts ≠ []) (h : d.locate .behind p = .ok place) :
    d.isDirectory p.parent := by
  have hshort := isShort_of_locate h
  have hsplit : p.parent.parts ++ [p.parts.getLast hne] = p.parts :=
    List.dropLast_append_getLast hne
  have hfollows := follows_of_locate h
  rw [← hsplit] at hfollows
  obtain ⟨middle, _, hparent, hdirectory, -⟩ :=
    hfollows.exists_of_append (isFirm_nil d) (by simp)
  exact isDirectory_iff.2
    ⟨middle, by rw [locate_of_isShort hshort.parent, hparent.walk_eq], hdirectory⟩

/-! ## Where every entry lies in a directory -/

/-- Every entry lies in a directory. -/
def IsTree (d : Disk) : Prop :=
  ∀ place name e, d.get? (place ++ [name]) = some e → d.get? place = some .directory

theorem mem_of_find? {entries : List (List String × Entry)} (h : find? place entries = some e) :
    (place, e) ∈ entries := by
  induction entries with
  | nil => cases h
  | cons entry rest ih =>
    obtain ⟨other, e'⟩ := entry
    rw [find?] at h
    split at h
    · rename_i heq
      cases h
      rw [heq]
      exact List.mem_cons_self
    · exact List.mem_cons_of_mem _ (ih h)

/-- A sweep lists the entries below its directory. -/
theorem mem_listing {way : List String} :
    (way, e) ∈ Sweep.listing d top ↔ way ≠ [] ∧ d.get? (top ++ way) = some e := by
  simp only [Sweep.listing, List.mem_filterMap, below, List.mem_filter, Bool.and_eq_true,
    List.isPrefixOf_iff_prefix, decide_eq_true_eq, Option.map_eq_some_iff, Prod.mk.injEq]
  constructor
  · rintro ⟨⟨place, e'⟩, ⟨-, ⟨way, rfl⟩, hne⟩, e, he, hway, rfl⟩
    rw [List.drop_left] at hway
    subst hway
    refine ⟨?_, he⟩
    rintro rfl
    exact hne (List.append_nil top)
  · rintro ⟨hne, he⟩
    have hfind := he
    rw [get?, if_neg (List.append_ne_nil_of_right_ne_nil top hne)] at hfind
    exact ⟨(top ++ way, e), ⟨mem_of_find? hfind, List.prefix_append _ _, by simpa using hne⟩, e, he,
      List.drop_left, rfl⟩

/-- Whether every entry lies in a directory is told by the entries of the table. -/
theorem isTree_of_entries (h : ∀ entry ∈ d.entries, d.get? entry.1.dropLast = some .directory) :
    IsTree d := by
  intro place name e he
  rw [get?, if_neg (by simp)] at he
  have hparent := h _ (mem_of_find? he)
  rwa [List.dropLast_concat] at hparent

theorem isLinkFree_of_entries (h : ∀ entry ∈ d.entries, ∀ target, entry.2 ≠ .link target) :
    IsLinkFree d [] := by
  intro place target _ hlink
  by_cases hnil : place = []
  · rw [hnil, get?_nil] at hlink
    cases hlink
  · rw [get?, if_neg hnil] at hlink
    exact h _ (mem_of_find? hlink) target rfl

/-- Whatever lies above an entry is a directory. -/
theorem IsTree.get?_of_append (h : IsTree d) {below : List String} (hne : below ≠ [])
    (he : d.get? (place ++ below) = some e) : d.get? place = some .directory := by
  induction below using List.reverseRecOn generalizing e with
  | nil => exact absurd rfl hne
  | append_singleton below name ih =>
    rw [← List.append_assoc] at he
    have hparent := h _ name e he
    by_cases hb : below = []
    · rwa [hb, List.append_nil] at hparent
    · exact ih hb hparent

/-- A new entry in a directory, in the place of no directory unless it is one. -/
theorem IsTree.set (h : IsTree d) (hparent : d.get? place.dropLast = some .directory)
    (hkind : e = .directory ∨ d.get? place ≠ some .directory) : IsTree (d.set place e) := by
  intro other name e' he'
  have hkept : d.get? other = some .directory → (d.set place e).get? other = some .directory := by
    intro hother
    by_cases heq : other = place
    · subst heq
      rcases hkind with rfl | hnot
      · by_cases hnil : other = []
        · rw [hnil, get?_nil]
        · rw [get?_set_self hnil]
      · exact absurd hother hnot
    · rw [get?_set_ne heq, hother]
  by_cases heq : other ++ [name] = place
  · rw [← heq, List.dropLast_concat] at hparent
    exact hkept hparent
  · rw [get?_set_ne heq] at he'
    exact hkept (h other name e' he')

/-- What is no directory holds nothing, so it can go away. -/
theorem IsTree.erase (h : IsTree d) (hkind : d.get? place ≠ some .directory) :
    IsTree (d.erase place) := by
  intro other name e he
  have hne : other ++ [name] ≠ place := by
    rintro rfl
    rw [get?_erase_self (by simp)] at he
    cases he
  rw [get?_erase_ne hne] at he
  have hother := h other name e he
  rw [get?_erase_ne, hother]
  rintro rfl
  exact hkind hother

/-- The place where a path leads lies in a directory. -/
theorem get?_dropLast_of_locate (h : d.locate aim p = .ok place) :
    d.get? place.dropLast = some .directory :=
  ((follows_of_locate h).isFirm (isFirm_nil d)).1.get?

/-- Directories on the way to a path are made in directories. -/
theorem GrowsToward.isTree (hgrows : GrowsToward p d d') (h : IsTree d) : IsTree d' := by
  intro place name e he
  rcases hgrows (place ++ [name]) with heq | ⟨-, -, q, -, hlocate⟩
  · rw [heq] at he
    exact hgrows.grows.get?_of_some (h place name e he)
  · have hparent := get?_dropLast_of_locate hlocate
    rwa [List.dropLast_concat] at hparent

/-! ## What a path leads to -/

/-- All names are short enough. -/
def AreShort (names : List String) : Prop := ∀ name ∈ names, name.utf8ByteSize ≤ nameLimit

theorem areShort_of_reach (h : d.reach here names = .ok place) : AreShort names := by
  induction names generalizing here with
  | nil => simp [AreShort]
  | cons name rest ih =>
    rw [reach] at h
    split at h
    · cases h
    · rename_i hshort
      have hrest : AreShort rest := by
        split at h
        · split at h
          · rename_i hnil
            simp [hnil, AreShort]
          · cases h
        · exact ih h
        · split at h
          · rename_i hnil
            simp [hnil, AreShort]
          · cases h
      intro n hn
      rcases List.mem_cons.1 hn with rfl | hn
      · exact Nat.not_lt.1 hshort
      · exact hrest n hn

/-- Where every entry lies in a directory, a walk by short names reaches every entry. -/
theorem IsTree.reach_of_get? (h : IsTree d) (hshort : AreShort names)
    (he : d.get? (here ++ names) = some e) : d.reach here names = .ok (here ++ names) := by
  induction names generalizing here with
  | nil => rw [reach, List.append_nil]
  | cons name rest ih =>
    have hname : ¬ nameLimit < name.utf8ByteSize := Nat.not_lt.2 (hshort name (by simp))
    have hsplit : here ++ name :: rest = here ++ [name] ++ rest := by simp
    rw [hsplit] at he ⊢
    rw [reach, if_neg hname]
    by_cases hrest : rest = []
    · subst hrest
      rw [List.append_nil] at he ⊢
      rw [he]
      cases e with
      | directory => rw [reach]
      | _ => rfl
    · rw [h.get?_of_append hrest he]
      exact ih (fun n hn => hshort n (by simp [hn])) he

/-- What a path below a root leads to: the entry at its place, if it is not too long. -/
theorem entryAt?_join (hr : RootAt d root top) (hfree : IsLinkFree d top) (htree : IsTree d)
    (hne : names ≠ []) (hplain : ∀ name ∈ names, IsPlain name)
    (hshort : IsShort (root.join names) ∧ AreShort names) :
    d.entryAt? (root.join names) = d.get? (top ++ names) := by
  rw [entryAt?, locate_join hr hfree hne hplain, if_pos hshort.1]
  cases hreach : d.reach top names with
  | ok place => rw [place_of_reach hreach]
  | error cause =>
    cases he : d.get? (top ++ names) with
    | none => rfl
    | some e =>
      rw [htree.reach_of_get? hshort.2 he] at hreach
      cases hreach

theorem entryAt?_join_eq_none (hr : RootAt d root top) (hfree : IsLinkFree d top)
    (hne : names ≠ []) (hplain : ∀ name ∈ names, IsPlain name)
    (hlong : ¬ (IsShort (root.join names) ∧ AreShort names)) :
    d.entryAt? (root.join names) = none := by
  rw [entryAt?, locate_join hr hfree hne hplain]
  by_cases hs : IsShort (root.join names)
  · rw [if_pos hs]
    cases hreach : d.reach top names with
    | ok place => exact absurd ⟨hs, areShort_of_reach hreach⟩ hlong
    | error cause => rfl
  · rw [if_neg hs]

/-- What a path below a root leads to depends on the entry at its place alone. -/
theorem entryAt?_join_congr (hr : RootAt d root top) (hr' : RootAt d' root top)
    (hfree : IsLinkFree d top) (hfree' : IsLinkFree d' top) (htree : IsTree d) (htree' : IsTree d')
    (hne : names ≠ []) (hplain : ∀ name ∈ names, IsPlain name)
    (hsame : d'.get? (top ++ names) = d.get? (top ++ names)) :
    d'.entryAt? (root.join names) = d.entryAt? (root.join names) := by
  by_cases hshort : IsShort (root.join names) ∧ AreShort names
  · rw [entryAt?_join hr hfree htree hne hplain hshort,
      entryAt?_join hr' hfree' htree' hne hplain hshort, hsame]
  · rw [entryAt?_join_eq_none hr hfree hne hplain hshort,
      entryAt?_join_eq_none hr' hfree' hne hplain hshort]

end Disk
end SchemaArtifacts
