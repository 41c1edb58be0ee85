import Mathlib.Data.List.Basic
import SchemaArtifacts.Disk.Operations

/-!
# Walks on a disk

A walk that arrives somewhere has passed through directories and links only. So it arrives at the
same place on every other disk with these directories and links, and what is walked behind a
directory can be walked from there. Where there are no links, the place of a path is told by its
names alone.

## Main definitions

* `Disk.IsName` — a name that an entry can have
* `Disk.Follows` — a walk that arrives at a place, step by step
* `Disk.IsFirm` — a place that is reached through directories by names
* `Disk.Keeps` — a disk keeps the directories and the links of another
* `Disk.reach` — a walk by names where there are no links

## Main results

* `Disk.Follows.walk_eq`, `Disk.follows_of_walk` — the walks that arrive are those of `Disk.walk`
* `Disk.Follows.unique` — a walk arrives at one place
* `Disk.Follows.keeps` — a disk that keeps directories and links keeps the walks
* `Disk.Follows.walk_append`, `Disk.Follows.exists_of_append` — a walk in two parts
* `Disk.Follows.isFirm` — the place where a walk arrives is reached through directories
* `Disk.walk_eq_reach` — a walk by names where there are no links
-/

namespace SchemaArtifacts.Disk

variable {d d' : Disk} {aim : Aim} {links : Nat} {here rest place xs ys : List String}
  {name target : String}

/-- A name that leads to an entry of its own. -/
structure IsPlain (name : String) : Prop where
  ne_empty : name ≠ ""
  ne_dot : name ≠ "."
  ne_dots : name ≠ ".."

/-- A name that an entry can have. -/
structure IsName (name : String) : Prop extends IsPlain name where
  short : name.utf8ByteSize ≤ nameLimit

/-- Where the target of a link is walked from. -/
def startOf (here : List String) (target : String) : List String :=
  if target.toList.head? = some '/' then [] else here

/-- A walk that arrives at a place. -/
inductive Follows (d : Disk) (aim : Aim) :
    (links : Nat) → (here rest place : List String) → Prop where
  | arrived (links : Nat) (here : List String) : Follows d aim links here [] here
  | stay (links : Nat) (here rest place : List String) (name : String)
      (still : name = "" ∨ name = ".") (open_ : ¬ (aim = .writing ∧ rest = [""]))
      (more : Follows d aim links here rest place) : Follows d aim links here (name :: rest) place
  | up (links : Nat) (here rest place : List String) (open_ : ¬ (aim = .writing ∧ rest = [""]))
      (more : Follows d aim links here.dropLast rest place) :
      Follows d aim links here (".." :: rest) place
  | last (links : Nat) (here : List String) (name : String) (isName : IsName name)
      (entry : d.get? (here ++ [name]) ≠ some .directory)
      (link : ∀ target, d.get? (here ++ [name]) = some (.link target) → aim = .itself) :
      Follows d aim links here [name] (here ++ [name])
  | enter (links : Nat) (here rest place : List String) (name : String) (isName : IsName name)
      (open_ : ¬ (aim = .writing ∧ rest = [""]))
      (directory : d.get? (here ++ [name]) = some .directory)
      (more : Follows d aim links (here ++ [name]) rest place) :
      Follows d aim links here (name :: rest) place
  | link (links : Nat) (here rest place : List String) (name target : String)
      (isName : IsName name) (open_ : ¬ (aim = .writing ∧ rest = [""]))
      (entry : d.get? (here ++ [name]) = some (.link target)) (behind : ¬ (rest = [] ∧ aim = .itself))
      (more : Follows d aim links (startOf here target) (stepsOf target.toList ++ rest) place) :
      Follows d aim (links + 1) here (name :: rest) place

@[simp] theorem walk_nil : d.walk aim links here [] = .ok here := by
  cases links <;> rfl

/-- The start of a walk, whatever is left of it. -/
theorem walk_cons : d.walk aim links here (name :: rest) =
    if aim = .writing ∧ rest = [""] then .error .isDirectory
    else if nameLimit < name.utf8ByteSize then .error .nameTooLong
    else if name = "" ∨ name = "." then d.walk aim links here rest
    else if name = ".." then d.walk aim links here.dropLast rest
    else match d.get? (here ++ [name]) with
      | none => if rest = [] then .ok (here ++ [name]) else .error .missing
      | some .directory => d.walk aim links (here ++ [name]) rest
      | some (.file _) => if rest = [] then .ok (here ++ [name]) else .error .notDirectory
      | some (.link target) =>
        if rest = [] ∧ aim = .itself then .ok (here ++ [name])
        else
          match links with
          | 0 => .error .tooManyLinks
          | links + 1 => d.walk aim links (startOf here target) (stepsOf target.toList ++ rest) := by
  cases links with
  | zero =>
    cases hentry : d.get? (here ++ [name]) with
    | none =>
      simp only [walk, walkBy, hentry, Bool.and_eq_true, Bool.or_eq_true, decide_eq_true_eq]
    | some e =>
      cases e <;>
        simp only [walk, walkBy, hentry, Bool.and_eq_true, Bool.or_eq_true, decide_eq_true_eq]
  | succ links =>
    cases hentry : d.get? (here ++ [name]) with
    | none =>
      simp only [walk, walkBy, hentry, Bool.and_eq_true, Bool.or_eq_true, decide_eq_true_eq]
    | some e =>
      cases e <;>
        simp only [walk, walkBy, startOf, hentry, Bool.and_eq_true, Bool.or_eq_true,
          decide_eq_true_eq]

/-- A walk by one name. -/
theorem walk_name (h : IsName name) (hopen : ¬ (aim = .writing ∧ rest = [""])) :
    d.walk aim links here (name :: rest) =
      match d.get? (here ++ [name]) with
      | none => if rest = [] then .ok (here ++ [name]) else .error .missing
      | some .directory => d.walk aim links (here ++ [name]) rest
      | some (.file _) => if rest = [] then .ok (here ++ [name]) else .error .notDirectory
      | some (.link target) =>
        if rest = [] ∧ aim = .itself then .ok (here ++ [name])
        else
          match links with
          | 0 => .error .tooManyLinks
          | links + 1 => d.walk aim links (startOf here target) (stepsOf target.toList ++ rest) := by
  have hstill : ¬ (name = "" ∨ name = ".") := not_or.2 ⟨h.ne_empty, h.ne_dot⟩
  rw [walk_cons, if_neg hopen, if_neg (Nat.not_lt.2 h.short), if_neg hstill, if_neg h.ne_dots]

theorem walk_stay (h : name = "" ∨ name = ".") (hopen : ¬ (aim = .writing ∧ rest = [""])) :
    d.walk aim links here (name :: rest) = d.walk aim links here rest := by
  have hshort : ¬ nameLimit < name.utf8ByteSize := by
    rcases h with rfl | rfl <;> decide
  rw [walk_cons, if_neg hopen, if_neg hshort, if_pos h]

theorem walk_up (hopen : ¬ (aim = .writing ∧ rest = [""])) :
    d.walk aim links here (".." :: rest) = d.walk aim links here.dropLast rest := by
  rw [walk_cons, if_neg hopen, if_neg (by decide), if_neg (by decide), if_pos rfl]

theorem Follows.walk_eq (h : Follows d aim links here rest place) :
    d.walk aim links here rest = .ok place := by
  induction h with
  | arrived links here => rw [walk_nil]
  | stay links here rest place name still open_ more ih => rw [walk_stay still open_, ih]
  | up links here rest place open_ more ih => rw [walk_up open_, ih]
  | last links here name isName entry link =>
    rw [walk_name isName (by simp)]
    cases hentry : d.get? (here ++ [name]) with
    | none => rfl
    | some e =>
      cases e with
      | directory => exact absurd hentry entry
      | file content => rfl
      | link target => simp [link target hentry]
  | enter links here rest place name isName open_ directory more ih =>
    rw [walk_name isName open_, directory]
    exact ih
  | link links here rest place name target isName open_ entry behind more ih =>
    rw [walk_name isName open_, entry]
    simp only [if_neg behind]
    exact ih

/-- A walk that arrives does so step by step, if walks through fewer links do. -/
theorem follows_of_walk_of_fewer (h : d.walk aim links here rest = .ok place)
    (hfewer : ∀ fewer here rest, links = fewer + 1 → d.walk aim fewer here rest = .ok place →
      Follows d aim fewer here rest place) : Follows d aim links here rest place := by
  -- Only a link that is followed makes the rest of the path longer, and there `hfewer` takes over.
  induction rest generalizing here with
  | nil =>
    rw [walk_nil] at h
    cases h
    exact .arrived links _
  | cons name rest ih =>
    rw [walk_cons] at h
    split at h
    · cases h
    rename_i hopen
    split at h
    · cases h
    rename_i hshort
    split at h
    · rename_i hstill
      exact .stay links here rest place name hstill hopen (ih h)
    rename_i hstill
    split at h
    · rename_i hup
      subst hup
      exact .up links here rest place hopen (ih h)
    rename_i hup
    have hname : IsName name :=
      ⟨⟨fun h => hstill (.inl h), fun h => hstill (.inr h), hup⟩, Nat.not_lt.1 hshort⟩
    cases hentry : d.get? (here ++ [name]) with
    | none =>
      simp only [hentry] at h
      split at h
      · rename_i hrest
        cases h
        subst hrest
        exact .last links here name hname (by simp [hentry]) (by simp [hentry])
      · cases h
    | some e =>
      cases e with
      | directory =>
        simp only [hentry] at h
        exact .enter links here rest place name hname hopen hentry (ih h)
      | file content =>
        simp only [hentry] at h
        split at h
        · rename_i hrest
          cases h
          subst hrest
          exact .last links here name hname (by simp [hentry]) (by simp [hentry])
        · cases h
      | link target =>
        simp only [hentry] at h
        split at h
        · rename_i hend
          cases h
          obtain ⟨rfl, haim⟩ := hend
          exact .last links here name hname (by simp [hentry]) fun _ _ => haim
        · rename_i hbehind
          cases links with
          | zero => cases h
          | succ fewer =>
            exact .link fewer here rest place name target hname hopen hentry hbehind
              (hfewer fewer _ _ rfl h)

/-- A walk that arrives does so step by step. -/
theorem follows_of_walk (h : d.walk aim links here rest = .ok place) :
    Follows d aim links here rest place := by
  induction links generalizing here rest with
  | zero => exact follows_of_walk_of_fewer h fun _ _ _ hlinks => absurd hlinks (Nat.succ_ne_zero _).symm
  | succ links ih =>
    refine follows_of_walk_of_fewer h fun fewer here rest hlinks hwalk => ?_
    cases hlinks
    exact ih hwalk

/-- A walk that arrives through some links arrives through more. -/
theorem Follows.of_more (h : Follows d aim links here rest place) (more : Nat) :
    Follows d aim (links + more) here rest place := by
  induction h with
  | arrived links here => exact .arrived _ _
  | stay links here rest place name still open_ _ ih => exact .stay _ _ _ _ _ still open_ ih
  | up links here rest place open_ _ ih => exact .up _ _ _ _ open_ ih
  | last links here name isName entry link => exact .last _ _ _ isName entry link
  | enter links here rest place name isName open_ directory _ ih =>
    exact .enter _ _ _ _ _ isName open_ directory ih
  | link links here rest place name target isName open_ entry behind _ ih =>
    rw [Nat.add_right_comm]
    exact .link _ _ _ _ _ target isName open_ entry behind ih

/-- A walk arrives at one place, through however many links it may lead. -/
theorem Follows.unique {links' : Nat} {place' : List String}
    (h : Follows d aim links here rest place) (h' : Follows d aim links' here rest place') :
    place' = place := by
  have hmore := (h'.of_more links).walk_eq
  rw [Nat.add_comm, (h.of_more links').walk_eq] at hmore
  exact (Except.ok.inj hmore).symm

/-! ## Where walks pass and arrive -/

/-- A place that is reached through directories by names, and is one itself. -/
structure IsFirm (d : Disk) (place : List String) : Prop where
  names : ∀ name ∈ place, IsName name
  directories : ∀ above, above <+: place → d.get? above = some .directory

theorem isFirm_nil (d : Disk) : IsFirm d [] := by
  refine ⟨by simp, fun above h => ?_⟩
  rw [List.prefix_nil.1 h, get?_nil]

theorem IsFirm.get? (h : IsFirm d place) : d.get? place = some .directory :=
  h.directories place (List.prefix_refl place)

theorem IsFirm.of_prefix (h : IsFirm d place) {above : List String} (ha : above <+: place) :
    IsFirm d above :=
  ⟨fun name hn => h.names name (ha.subset hn), fun _ hb => h.directories _ (hb.trans ha)⟩

theorem IsFirm.dropLast (h : IsFirm d place) : IsFirm d place.dropLast :=
  h.of_prefix (List.dropLast_prefix place)

theorem IsFirm.concat (h : IsFirm d place) (hn : IsName name)
    (hd : d.get? (place ++ [name]) = some .directory) : IsFirm d (place ++ [name]) := by
  refine ⟨fun n hmem => ?_, fun above ha => ?_⟩
  · rcases List.mem_append.1 hmem with hmem | hmem
    · exact h.names n hmem
    · rwa [List.mem_singleton.1 hmem]
  · rcases List.prefix_concat_iff.1 ha with rfl | ha
    · exact hd
    · exact h.directories above ha

theorem IsFirm.startOf (h : IsFirm d here) (target : String) : IsFirm d (startOf here target) := by
  unfold Disk.startOf
  split
  · exact isFirm_nil d
  · exact h

/-- The place where a walk arrives is reached through directories by names. -/
theorem Follows.isFirm (h : Follows d aim links here rest place) (hh : IsFirm d here) :
    IsFirm d place.dropLast ∧ ∀ name ∈ place, IsName name := by
  induction h with
  | arrived links here => exact ⟨hh.dropLast, hh.names⟩
  | stay links here rest place name still open_ more ih => exact ih hh
  | up links here rest place open_ more ih => exact ih hh.dropLast
  | last links here name isName entry link =>
    rw [List.dropLast_concat]
    refine ⟨hh, fun n hmem => ?_⟩
    rcases List.mem_append.1 hmem with hmem | hmem
    · exact hh.names n hmem
    · rwa [List.mem_singleton.1 hmem]
  | enter links here rest place name isName open_ directory more ih =>
    exact ih (hh.concat isName directory)
  | link links here rest place name target isName open_ entry behind more ih =>
    exact ih (hh.startOf target)

/-- A walk that follows all links arrives at none. -/
theorem Follows.not_link (h : Follows d aim links here rest place) (hh : IsFirm d here)
    (haim : aim ≠ .itself) (target : String) : d.get? place ≠ some (.link target) := by
  induction h with
  | arrived links here =>
    rw [hh.get?]
    simp
  | stay links here rest place name still open_ more ih => exact ih hh
  | up links here rest place open_ more ih => exact ih hh.dropLast
  | last links here name isName entry link => exact fun hlink => haim (link target hlink)
  | enter links here rest place name isName open_ directory more ih =>
    exact ih (hh.concat isName directory)
  | link links here rest place name target isName open_ entry behind more ih =>
    exact ih (hh.startOf target)

/-- A walk that arrives at a directory has followed the links that led there. -/
theorem Follows.behind (h : Follows d aim links here rest place)
    (hdirectory : d.get? place = some .directory) : Follows d .behind links here rest place := by
  induction h with
  | arrived links here => exact .arrived _ _
  | stay links here rest place name still open_ more ih =>
    exact .stay _ _ _ _ _ still (by simp) (ih hdirectory)
  | up links here rest place open_ more ih => exact .up _ _ _ _ (by simp) (ih hdirectory)
  | last links here name isName entry link => exact absurd hdirectory entry
  | enter links here rest place name isName open_ directory more ih =>
    exact .enter _ _ _ _ _ isName (by simp) directory (ih hdirectory)
  | link links here rest place name target isName open_ entry behind more ih =>
    exact .link _ _ _ _ _ target isName (by simp) entry (by simp) (ih hdirectory)

/-- A disk keeps the directories and the links of another that can be walked to, and has no other
links. -/
structure Keeps (d d' : Disk) : Prop where
  directory : ∀ place, (∀ name ∈ place, IsName name) → d.get? place = some .directory →
    d'.get? place = some .directory
  link : ∀ place target, (∀ name ∈ place, IsName name) → d.get? place = some (.link target) →
    d'.get? place = some (.link target)
  noLink : ∀ place target, d'.get? place = some (.link target) → d.get? place = some (.link target)

theorem Keeps.refl (d : Disk) : Keeps d d := ⟨fun _ _ => id, fun _ _ _ => id, fun _ _ => id⟩

theorem Keeps.trans {d'' : Disk} (h : Keeps d d') (h' : Keeps d' d'') : Keeps d d'' :=
  ⟨fun place hn hd => h'.directory place hn (h.directory place hn hd),
    fun place target hn hl => h'.link place target hn (h.link place target hn hl),
    fun place target hl => h.noLink place target (h'.noLink place target hl)⟩

theorem IsFirm.keeps (h : IsFirm d place) (hk : Keeps d d') : IsFirm d' place :=
  ⟨h.names, fun above ha => hk.directory above (fun name hn => h.names name (ha.subset hn))
    (h.directories above ha)⟩

theorem mem_concat_isName (hh : ∀ n ∈ here, IsName n) (hn : IsName name) :
    ∀ n ∈ here ++ [name], IsName n := by
  intro n hmem
  rcases List.mem_append.1 hmem with hmem | hmem
  · exact hh n hmem
  · rwa [List.mem_singleton.1 hmem]

/-- A disk that keeps directories and links keeps the walks. -/
theorem Follows.keeps (h : Follows d aim links here rest place) (hh : ∀ n ∈ here, IsName n)
    (hk : Keeps d d') : Follows d' aim links here rest place := by
  induction h with
  | arrived links here => exact .arrived links here
  | stay links here rest place name still open_ more ih => exact .stay _ _ _ _ _ still open_ (ih hh)
  | up links here rest place open_ more ih =>
    exact .up _ _ _ _ open_ (ih fun n hn => hh n (List.dropLast_subset _ hn))
  | last links here name isName entry link =>
    by_cases hd : d'.get? (here ++ [name]) = some .directory
    · exact .enter _ _ _ _ _ isName (by simp) hd (.arrived _ _)
    · exact .last _ _ _ isName hd fun target ht => link target (hk.noLink _ _ ht)
  | enter links here rest place name isName open_ directory more ih =>
    have hnames := mem_concat_isName hh isName
    exact .enter _ _ _ _ _ isName open_ (hk.directory _ hnames directory) (ih hnames)
  | link links here rest place name target isName open_ entry behind more ih =>
    have hstart : ∀ n ∈ startOf here target, IsName n := by
      unfold Disk.startOf
      split
      · simp
      · exact hh
    exact .link _ _ _ _ _ target isName open_ (hk.link _ _ (mem_concat_isName hh isName) entry) behind
      (ih hstart)

/-! ## Walks in two parts -/

theorem append_ne_singleton (hne : ys ≠ []) (hys : "" ∉ ys) (xs : List String) : xs ++ ys ≠ [""] := by
  intro h
  cases xs with
  | nil =>
    rw [List.nil_append] at h
    simp [h] at hys
  | cons x xs =>
    rw [List.cons_append, List.cons.injEq, List.append_eq_nil_iff] at h
    exact hne h.2.2

/-- Behind a directory that a walk arrives at, a walk goes on from there. -/
theorem Follows.walk_append (h : Follows d .behind links here xs place)
    (hd : d.get? place = some .directory) :
    ∃ links', ∀ (aim : Aim) (ys : List String), ys ≠ [] → (aim = .writing → "" ∉ ys) →
      d.walk aim links here (xs ++ ys) = d.walk aim links' place ys := by
  -- Each step is taken again. With something behind it, a step is never the last of what is to be
  -- written, so it does not matter that the walk to the directory was for another aim.
  induction h with
  | arrived links here => exact ⟨links, fun aim ys _ _ => rfl⟩
  | stay links here rest place name still open_ more ih =>
    obtain ⟨links', ih⟩ := ih hd
    refine ⟨links', fun aim ys hne hys => ?_⟩
    rw [List.cons_append, walk_stay still fun h => append_ne_singleton hne (hys h.1) rest h.2,
      ih aim ys hne hys]
  | up links here rest place open_ more ih =>
    obtain ⟨links', ih⟩ := ih hd
    refine ⟨links', fun aim ys hne hys => ?_⟩
    rw [List.cons_append, walk_up fun h => append_ne_singleton hne (hys h.1) rest h.2, ih aim ys hne hys]
  | last links here name isName entry link => exact absurd hd entry
  | enter links here rest place name isName open_ directory more ih =>
    obtain ⟨links', ih⟩ := ih hd
    refine ⟨links', fun aim ys hne hys => ?_⟩
    rw [List.cons_append, walk_name isName fun h => append_ne_singleton hne (hys h.1) rest h.2,
      directory]
    exact ih aim ys hne hys
  | link links here rest place name target isName open_ entry behind more ih =>
    obtain ⟨links', ih⟩ := ih hd
    refine ⟨links', fun aim ys hne hys => ?_⟩
    rw [List.cons_append, walk_name isName fun h => append_ne_singleton hne (hys h.1) rest h.2,
      entry]
    have hmore : ¬ (rest ++ ys = [] ∧ aim = .itself) := by simp [hne]
    simp only [if_neg hmore]
    rw [← List.append_assoc]
    exact ih aim ys hne hys

/-- A walk that arrives has arrived at a directory before it goes on by a name. -/
theorem Follows.exists_of_append (h : Follows d aim links here (xs ++ ys) place)
    (hh : IsFirm d here) (hne : ys ≠ []) :
    ∃ middle links', Follows d .behind links here xs middle ∧ d.get? middle = some .directory ∧
      Follows d aim links' middle ys place := by
  -- The walk splits where the first part is used up: what is left then is the second part, and a
  -- link that is followed puts its own names in front of it.
  generalize hrest : xs ++ ys = rest at h
  induction h generalizing xs with
  | arrived links here =>
    exact absurd (List.append_eq_nil_iff.1 hrest).2 hne
  | stay links here rest place name still open_ more ih =>
    cases xs with
    | nil =>
      obtain rfl : ys = name :: rest := hrest
      exact ⟨here, links, .arrived _ _, hh.get?, .stay _ _ _ _ _ still open_ more⟩
    | cons x xs =>
      rw [List.cons_append, List.cons.injEq] at hrest
      obtain ⟨rfl, hrest⟩ := hrest
      obtain ⟨middle, links', h1, h2, h3⟩ := ih hh hrest
      exact ⟨middle, links', .stay _ _ _ _ _ still (by simp) h1, h2, h3⟩
  | up links here rest place open_ more ih =>
    cases xs with
    | nil =>
      obtain rfl : ys = ".." :: rest := hrest
      exact ⟨here, links, .arrived _ _, hh.get?, .up _ _ _ _ open_ more⟩
    | cons x xs =>
      rw [List.cons_append, List.cons.injEq] at hrest
      obtain ⟨rfl, hrest⟩ := hrest
      obtain ⟨middle, links', h1, h2, h3⟩ := ih hh.dropLast hrest
      exact ⟨middle, links', .up _ _ _ _ (by simp) h1, h2, h3⟩
  | last links here name isName entry link =>
    cases xs with
    | nil =>
      obtain rfl : ys = [name] := hrest
      exact ⟨here, links, .arrived _ _, hh.get?, .last _ _ _ isName entry link⟩
    | cons x xs =>
      rw [List.cons_append, List.cons.injEq, List.append_eq_nil_iff] at hrest
      exact absurd hrest.2.2 hne
  | enter links here rest place name isName open_ directory more ih =>
    cases xs with
    | nil =>
      obtain rfl : ys = name :: rest := hrest
      exact ⟨here, links, .arrived _ _, hh.get?, .enter _ _ _ _ _ isName open_ directory more⟩
    | cons x xs =>
      rw [List.cons_append, List.cons.injEq] at hrest
      obtain ⟨rfl, hrest⟩ := hrest
      obtain ⟨middle, links', h1, h2, h3⟩ := ih (hh.concat isName directory) hrest
      exact ⟨middle, links', .enter _ _ _ _ _ isName (by simp) directory h1, h2, h3⟩
  | link links here rest place name target isName open_ entry behind more ih =>
    cases xs with
    | nil =>
      obtain rfl : ys = name :: rest := hrest
      exact ⟨here, _, .arrived _ _, hh.get?, .link _ _ _ _ _ target isName open_ entry behind more⟩
    | cons x xs =>
      rw [List.cons_append, List.cons.injEq] at hrest
      obtain ⟨rfl, hrest⟩ := hrest
      have hsteps : (stepsOf target.toList ++ xs) ++ ys = stepsOf target.toList ++ rest := by
        rw [List.append_assoc, hrest]
      obtain ⟨middle, links', h1, h2, h3⟩ := ih (hh.startOf target) hsteps
      exact ⟨middle, links', .link _ _ _ _ _ target isName (by simp) entry (by simp) h1, h2, h3⟩

/-- A walk through directories by names goes on from the last of them. -/
theorem walk_of_isFirm {above below : List String} (h : IsFirm d (above ++ below))
    (hopen : ¬ (aim = .writing ∧ rest = [""])) :
    d.walk aim links above (below ++ rest) = d.walk aim links (above ++ below) rest := by
  induction below generalizing above with
  | nil => simp
  | cons name below ih =>
    have hname : IsName name := h.names name (by simp)
    have hdir : d.get? (above ++ [name]) = some .directory :=
      h.directories _ ⟨below, by simp⟩
    -- The names of directories are not empty, so an empty last name can only be that of the rest.
    have hopen' : ¬ (aim = .writing ∧ below ++ rest = [""]) := by
      rintro ⟨haim, heq⟩
      cases below with
      | nil => exact hopen ⟨haim, heq⟩
      | cons n below =>
        rw [List.cons_append, List.cons.injEq] at heq
        exact (h.names n (by simp)).ne_empty heq.1
    rw [List.cons_append, walk_name hname hopen', hdir]
    have hsplit : above ++ name :: below = above ++ [name] ++ below := by simp
    rw [hsplit]
    exact ih (by rwa [← hsplit])

/-! ## Where there are no links -/

/-- A walk by names where there are no links. -/
def reach (d : Disk) (here : List String) : (names : List String) →
    Except DiskError.Cause (List String)
  | [] => .ok here
  | name :: rest =>
    if nameLimit < name.utf8ByteSize then .error .nameTooLong
    else
      match d.get? (here ++ [name]) with
      | none => if rest = [] then .ok (here ++ [name]) else .error .missing
      | some .directory => reach d (here ++ [name]) rest
      | some _ => if rest = [] then .ok (here ++ [name]) else .error .notDirectory

/-- No link is at a place or below it. -/
def IsLinkFree (d : Disk) (place : List String) : Prop :=
  ∀ below target, place <+: below → d.get? below ≠ some (.link target)

theorem IsLinkFree.of_prefix (h : IsLinkFree d place) {below : List String} (hb : place <+: below) :
    IsLinkFree d below :=
  fun below' target hb' => h below' target (hb.trans hb')

/-- Where there are no links, what a path is followed for makes no difference. -/
theorem walk_eq_reach (hfree : IsLinkFree d here) (hplain : ∀ name ∈ rest, IsPlain name) :
    d.walk aim links here rest = d.reach here rest := by
  induction rest generalizing here with
  | nil => rw [walk_nil, reach]
  | cons name rest ih =>
    have hname := hplain name (by simp)
    have hopen : ¬ (aim = .writing ∧ rest = [""]) := by
      rintro ⟨-, rfl⟩
      exact (hplain "" (by simp)).ne_empty rfl
    by_cases hlong : nameLimit < name.utf8ByteSize
    · rw [walk_cons, reach, if_neg hopen, if_pos hlong, if_pos hlong]
    · rw [walk_name ⟨hname, Nat.not_lt.1 hlong⟩ hopen, reach, if_neg hlong]
      cases hentry : d.get? (here ++ [name]) with
      | none => rfl
      | some e =>
        cases e with
        | file content => rfl
        | directory =>
          exact ih (hfree.of_prefix (List.prefix_append _ _)) fun n hn => hplain n (by simp [hn])
        | link target => exact absurd hentry (hfree _ target (List.prefix_append _ _))

theorem place_of_reach (h : d.reach here rest = .ok place) : place = here ++ rest := by
  induction rest generalizing here with
  | nil =>
    cases h
    simp
  | cons name rest ih =>
    rw [reach] at h
    split at h
    · cases h
    · split at h
      · split at h
        · rename_i hrest
          cases h
          rw [hrest]
        · cases h
      · rw [ih h]
        simp
      · split at h
        · rename_i hrest
          cases h
          rw [hrest]
        · cases h

end SchemaArtifacts.Disk
