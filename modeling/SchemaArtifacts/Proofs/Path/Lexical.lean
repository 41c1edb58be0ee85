import Mathlib.Data.List.Induction
import SchemaArtifacts.Path.Lexical
import SchemaArtifacts.Path.Root

/-!
# Where lexical paths lead

A path text is read by entering its components one after the other. Clean components are entered as
they are, so a path below a root leads to the root's own components and then its own. The way from a
directory to a module, followed from that directory, leads to the module, unless the module with its
marker is the directory itself or one above it: then the way has no last component to name it.

## Main definitions

* `Path.IsClean` — a component that is entered as it is
* `Path.climb` — some levels up, at most to the top
* `Path.resolve` — where a relative path leads from a directory
* `Path.suffixed` — a suffix behind the last component
* `Path.moduleWay` — the components of the way to a module

## Main results

* `Path.normal_join`, `Path.normal_dirname_join` — a path below a root, and its directory
* `Path.relativeParts_append` — what leads to a common directory falls out of the way
* `Path.moduleSpecifier_beside`, `Path.moduleSpecifier_above` — the text of the way to a
  module
* `Path.resolve_moduleSpecifier`, `Path.resolve_moduleSpecifier_self` — where the way to a module
  leads from any directory, and from the one it was computed for
* `Path.resolve_moduleSpecifier_above` — where it leads if the module is a directory above
-/

namespace SchemaArtifacts.Path

variable {ps qs at_ : List (List Char)} {a b : List Char}

/-- A component that is entered as it is. -/
structure IsClean (part : List Char) : Prop where
  ne_nil : part ≠ []
  ne_dot : part ≠ ['.']
  ne_dots : part ≠ ['.', '.']
  no_slash : '/' ∉ part

/-- Some levels up, at most to the top. -/
def climb (at_ : List (List Char)) (levels : Nat) : List (List Char) :=
  at_.take (at_.length - levels)

/-- Where a relative path leads from a directory. -/
def resolve (dir path : List Char) : List (List Char) := normal (dir ++ '/' :: path)

/-- A suffix behind the last component. -/
def suffixed (suffix : List Char) (parts : List (List Char)) : List (List Char) :=
  parts.dropLast ++ [parts.getLastD [] ++ suffix]

@[simp] theorem suffixed_concat (suffix last : List Char) (parts : List (List Char)) :
    suffixed suffix (parts ++ [last]) = parts ++ [last ++ suffix] := by
  simp [suffixed]

theorem enter_of_isClean (h : IsClean a) (at_ : List (List Char)) : enter at_ a = at_ ++ [a] := by
  unfold enter
  rw [if_neg (by simp [h.ne_nil, h.ne_dot]), if_neg h.ne_dots]

theorem foldl_enter_of_isClean (h : ∀ p ∈ ps, IsClean p) (at_ : List (List Char)) :
    ps.foldl enter at_ = at_ ++ ps := by
  induction ps generalizing at_ with
  | nil => simp
  | cons p ps ih =>
    have hp := h p (by simp)
    rw [List.foldl_cons, enter_of_isClean hp, ih fun q hq => h q (by simp [hq])]
    simp

theorem foldl_enter_replicate (n : Nat) (at_ : List (List Char)) :
    (List.replicate n ['.', '.']).foldl enter at_ = climb at_ n := by
  induction n generalizing at_ with
  | zero => simp [climb]
  | succ n ih =>
    have hup : enter at_ ['.', '.'] = at_.dropLast := rfl
    rw [List.replicate_succ, List.foldl_cons, hup, ih, climb, climb, List.length_dropLast,
      List.dropLast_eq_take, List.take_take]
    congr 1
    omega

/-! ## Reading a path -/

theorem normal_append (a b : List Char) :
    normal (a ++ '/' :: b) = (b.splitOn '/').foldl enter (normal a) := by
  rw [normal, List.splitOn_append_cons_self, List.foldl_append]
  rfl

@[simp] theorem normal_nil : normal [] = [] := rfl

@[simp] theorem normal_slash (b : List Char) : normal ('/' :: b) = normal b :=
  normal_append [] b

theorem normal_append_slash (a : List Char) : normal (a ++ ['/']) = normal a := by
  rw [normal_append]
  rfl

theorem normal_append_of_isClean (h : IsClean b) : normal (a ++ '/' :: b) = normal a ++ [b] := by
  rw [normal_append, List.splitOn_eq_singleton h.no_slash, List.foldl_cons, List.foldl_nil,
    enter_of_isClean h]

theorem normal_dropTrailing (s : List Char) : normal (Text.dropTrailing '/' s) = normal s := by
  induction s using List.reverseRecOn with
  | nil => rfl
  | append_singleton init last ih =>
    by_cases hl : last = '/'
    · subst hl
      have hdrop : Text.dropTrailing '/' (init ++ ['/']) = Text.dropTrailing '/' init := by
        simp [Text.dropTrailing]
      rw [hdrop, normal_append_slash, ih]
    · have hdrop : Text.dropTrailing '/' (init ++ [last]) = init ++ [last] := by
        simp [Text.dropTrailing, hl]
      rw [hdrop]

theorem normal_dirname (h : '/' ∉ b) : normal (dirname (a ++ '/' :: b)) = normal a := by
  unfold dirname
  rw [Text.cutLast?_eq_some_iff.2 ⟨rfl, h⟩]
  dsimp only
  split
  · exact normal_append_slash a
  · exact normal_dropTrailing a

/-- The text of a path ends in its last part, and what stands before it leads to the rest. -/
theorem exists_toString_join_concat (p : AbsolutePath) (parts : List String) (last : String) :
    ∃ head, (p.join (parts ++ [last])).toString.toList = head ++ '/' :: last.toList ∧
      normal head = normal (p.join parts).toString.toList := by
  by_cases h : p.parts ++ parts = []
  · obtain ⟨hp, rfl⟩ := List.append_eq_nil_iff.1 h
    refine ⟨if p.doubled then ['/'] else [], ?_, ?_⟩
    · cases hd : p.doubled <;> simp [AbsolutePath.toString, AbsolutePath.join, hp, hd]
    · cases hd : p.doubled <;> simp [AbsolutePath.toString, AbsolutePath.join, hp, hd]
  · refine ⟨(p.join parts).toString.toList, ?_, rfl⟩
    have hsplit := String.intercalate_append_of_ne_nil (s := "/") h (List.cons_ne_nil last [])
    simp only [AbsolutePath.toString, AbsolutePath.join, ← List.append_assoc, hsplit,
      String.intercalate_singleton, String.toList_append]
    rw [show "/".toList = ['/'] from rfl, List.append_assoc]
    rfl

/-- A path below a root leads to what the root leads to, and from there by its own parts. -/
theorem normal_join (p : AbsolutePath) {ss : List (List Char)} (h : ∀ s ∈ ss, IsClean s) :
    normal (p.join (ss.map String.ofList)).toString.toList = normal p.toString.toList ++ ss := by
  induction ss using List.reverseRecOn with
  | nil => simp [AbsolutePath.join]
  | append_singleton init last ih =>
    obtain ⟨head, htext, hhead⟩ :=
      exists_toString_join_concat p (init.map String.ofList) (String.ofList last)
    have hlast : IsClean last := h last (by simp)
    rw [List.map_append, List.map_cons, List.map_nil, htext, String.toList_ofList,
      normal_append_of_isClean hlast, hhead, ih fun s hs => h s (by simp [hs])]
    simp

theorem normal_dirname_join (p : AbsolutePath) {ss : List (List Char)} {last : List Char}
    (h : ∀ s ∈ ss, IsClean s) (hl : IsClean last) :
    normal (dirname (p.join ((ss ++ [last]).map String.ofList)).toString.toList) =
      normal p.toString.toList ++ ss := by
  obtain ⟨head, htext, hhead⟩ :=
    exists_toString_join_concat p (ss.map String.ofList) (String.ofList last)
  rw [List.map_append, List.map_cons, List.map_nil, htext, String.toList_ofList,
    normal_dirname hl.no_slash, hhead, normal_join p h]

theorem normal_join_append (p : AbsolutePath) {ss : List (List Char)} {last suffix : List Char}
    (h : ∀ s ∈ ss, IsClean s) (hl : IsClean (last ++ suffix)) :
    normal ((p.join ((ss ++ [last]).map String.ofList)).toString.toList ++ suffix) =
      normal p.toString.toList ++ ss ++ [last ++ suffix] := by
  obtain ⟨head, htext, hhead⟩ :=
    exists_toString_join_concat p (ss.map String.ofList) (String.ofList last)
  rw [List.map_append, List.map_cons, List.map_nil, htext, String.toList_ofList,
    List.append_assoc, List.cons_append, normal_append_of_isClean hl, hhead, normal_join p h]

theorem isClean_of_mem_normal (path : List Char) : ∀ p ∈ normal path, IsClean p := by
  have hsplit : ∀ part ∈ path.splitOn '/', '/' ∉ part := by
    intro part hpart hslash
    rw [List.splitOn_eq_splitOnP] at hpart
    have hpiece : part ∈ Text.pieces (· == '/') path :=
      List.mem_filter.2 ⟨hpart, by cases part <;> simp at hslash ⊢⟩
    simpa using Text.not_mem_of_mem_pieces hpiece '/' hslash
  unfold normal
  generalize path.splitOn '/' = parts at hsplit
  -- The components so far are general. A step up drops the last of them, and every other step adds
  -- a clean one.
  suffices h : ∀ at_ : List (List Char), (∀ p ∈ at_, IsClean p) →
      ∀ p ∈ parts.foldl enter at_, IsClean p from h [] (by simp)
  induction parts with
  | nil => exact fun at_ h => h
  | cons part parts ih =>
    intro at_ hat
    refine ih (fun q hq => hsplit q (by simp [hq])) _ ?_
    unfold enter
    split
    · exact hat
    · rename_i hdot
      split
      · exact fun p hp => hat p (List.dropLast_subset _ hp)
      · rename_i hdots
        simp only [Bool.or_eq_true, List.isEmpty_iff, decide_eq_true_eq, not_or] at hdot
        intro p hp
        rcases List.mem_append.1 hp with hp | hp
        · exact hat p hp
        · rw [List.mem_singleton.1 hp]
          exact ⟨hdot.1, hdot.2, hdots, hsplit part (by simp)⟩

/-! ## The way to a module -/

theorem sharedLength_le_left (xs ys : List (List Char)) : sharedLength xs ys ≤ xs.length := by
  induction xs generalizing ys with
  | nil => simp [sharedLength]
  | cons x xs ih =>
    cases ys with
    | nil => simp [sharedLength]
    | cons y ys =>
      have := ih ys
      simp only [sharedLength, List.length_cons]
      split <;> omega

theorem sharedLength_le_right (xs ys : List (List Char)) : sharedLength xs ys ≤ ys.length := by
  induction xs generalizing ys with
  | nil => simp [sharedLength]
  | cons x xs ih =>
    cases ys with
    | nil => simp [sharedLength]
    | cons y ys =>
      have := ih ys
      simp only [sharedLength, List.length_cons]
      split <;> omega

theorem take_sharedLength (xs ys : List (List Char)) :
    xs.take (sharedLength xs ys) = ys.take (sharedLength xs ys) := by
  induction xs generalizing ys with
  | nil => simp [sharedLength]
  | cons x xs ih =>
    cases ys with
    | nil => simp [sharedLength]
    | cons y ys =>
      by_cases h : x = y
      · simp [sharedLength, h, ih ys]
      · simp [sharedLength, h]

theorem sharedLength_of_prefix {xs ys : List (List Char)} (h : ys <+: xs) :
    sharedLength xs ys = ys.length := by
  obtain ⟨rest, rfl⟩ := h
  induction ys with
  | nil => cases rest <;> rfl
  | cons y ys ih => simpa [sharedLength] using ih

theorem sharedLength_lt_of_not_prefix {xs ys : List (List Char)} (h : ¬ ys <+: xs) :
    sharedLength xs ys < ys.length := by
  have hle := sharedLength_le_right xs ys
  rcases Nat.lt_or_eq_of_le hle with hlt | heq
  · exact hlt
  · refine absurd ?_ h
    have htake := take_sharedLength xs ys
    rw [heq, List.take_length] at htake
    rw [← htake]
    exact List.take_prefix _ _

theorem sharedLength_append (root xs ys : List (List Char)) :
    sharedLength (root ++ xs) (root ++ ys) = root.length + sharedLength xs ys := by
  induction root with
  | nil => simp
  | cons r root ih => simp [sharedLength, ih]; omega

/-- What leads to a common directory falls out of the way. -/
theorem relativeParts_append (root target start : List (List Char)) :
    relativeParts (root ++ target) (root ++ start) = relativeParts target start := by
  have hup : (root ++ start).length - (root.length + sharedLength start target) =
      start.length - sharedLength start target := by
    rw [List.length_append]
    omega
  simp only [relativeParts, sharedLength_append, hup, List.drop_length_add_append]

theorem relative_congr {a' b' : List Char}
    (h : relativeParts (normal a) (normal b) = relativeParts (normal a') (normal b')) :
    relative a b = relative a' b' := by
  unfold relative
  rw [h]

theorem isClean_append_marker {last : List Char} (h : IsClean last) : IsClean (last ++ marker) := by
  have hlong : 3 < (last ++ marker).length := by
    have := List.length_pos_iff.2 h.ne_nil
    simp only [List.length_append, marker, List.length_cons, List.length_nil]
    omega
  refine ⟨?_, ?_, ?_, ?_⟩
  · intro heq
    simp [heq] at hlong
  · intro heq
    simp [heq] at hlong
  · intro heq
    simp [heq] at hlong
  · rw [List.mem_append, not_or]
    exact ⟨h.no_slash, by decide⟩

theorem dropMarker_append (s : List Char) : dropMarker (s ++ marker) = s := by
  unfold dropMarker
  rw [if_pos (by simp [List.isSuffixOf_iff_suffix])]
  simp

theorem dropMarker_concat_dot (s : List Char) : dropMarker (s ++ ['.']) = s ++ ['.'] := by
  unfold dropMarker
  rw [if_neg]
  rw [List.isSuffixOf_iff_suffix]
  rintro ⟨t, ht⟩
  have := congrArg (·.getLast?) ht
  simp [marker] at this

theorem foldl_splitOn_visiblyRelative (s : List Char) (at_ : List (List Char)) :
    ((visiblyRelative s).splitOn '/').foldl enter at_ = (s.splitOn '/').foldl enter at_ := by
  unfold visiblyRelative
  split
  · rfl
  · have hsplit : ('.' :: '/' :: s).splitOn '/' = ['.'] :: s.splitOn '/' :=
      List.splitOn_append_cons_self ['.'] s
    rw [hsplit, List.foldl_cons]
    rfl

theorem resolve_visiblyRelative (dir : List Char) (hne : ps ≠ []) (h : ∀ p ∈ ps, '/' ∉ p) :
    resolve dir (visiblyRelative (['/'].intercalate ps)) = ps.foldl enter (normal dir) := by
  rw [resolve, normal_append, foldl_splitOn_visiblyRelative, List.splitOn_intercalate '/' h hne]

theorem intercalate_concat (ps : List (List Char)) (last suffix : List Char) :
    ['/'].intercalate (ps ++ [last ++ suffix]) = ['/'].intercalate (ps ++ [last]) ++ suffix := by
  induction ps with
  | nil => simp
  | cons p ps ih =>
    rw [List.cons_append, List.cons_append, List.intercalate_cons_of_ne_nil (by simp),
      List.intercalate_cons_of_ne_nil (by simp), ih]
    simp

theorem relative_of_parts (h : relativeParts (normal a) (normal b) = ps) (hne : ps ≠ []) :
    relative a b = ['/'].intercalate ps := by
  unfold relative
  rw [h]
  cases ps with
  | nil => exact absurd rfl hne
  | cons p ps => rfl

section ModuleSpecifier

variable {target dir last : List Char} {above : List (List Char)}

/-- The components of the way from a directory to a module: up out of what they do not share, down
again, and the name of the module. -/
def moduleWay (start above : List (List Char)) (last : List Char) : List (List Char) :=
  let shared := sharedLength start (above ++ [last ++ marker])
  List.replicate (start.length - shared) ['.', '.'] ++ (above.drop shared ++ [last])

theorem sharedLength_le_above (h : ¬ above ++ [last ++ marker] <+: ps) :
    sharedLength ps (above ++ [last ++ marker]) ≤ above.length := by
  have hlt := sharedLength_lt_of_not_prefix h
  rw [List.length_append] at hlt
  exact Nat.lt_succ_iff.1 hlt

/-- What a directory has in common with a module beside it is the start of the module's own
directory. -/
theorem take_sharedLength_above (h : ¬ above ++ [last ++ marker] <+: ps) :
    ps.take (sharedLength ps (above ++ [last ++ marker])) =
      above.take (sharedLength ps (above ++ [last ++ marker])) := by
  rw [take_sharedLength, List.take_append_of_le_length (sharedLength_le_above h)]

/-- The text of the way to a module, unless the module with the marker is the directory or above it. -/
theorem moduleSpecifier_beside (ht : normal (target ++ marker) = above ++ [last ++ marker])
    (h : ¬ above ++ [last ++ marker] <+: normal dir) :
    moduleSpecifier target dir =
      visiblyRelative (['/'].intercalate (moduleWay (normal dir) above last)) := by
  have hle := sharedLength_le_above h
  rw [moduleWay]
  generalize hk : sharedLength (normal dir) (above ++ [last ++ marker]) = k at hle ⊢
  have hway : relative (target ++ marker) dir = ['/'].intercalate
      (List.replicate ((normal dir).length - k) ['.', '.'] ++ above.drop k ++ [last ++ marker]) := by
    refine relative_of_parts ?_ (by simp)
    rw [ht, relativeParts, hk, List.drop_append_of_le_length hle, List.append_assoc]
  rw [moduleSpecifier, hway, intercalate_concat, dropMarker_append, List.append_assoc]

theorem not_mem_replicate_dots (n : Nat) : ∀ p ∈ List.replicate n ['.', '.'], '/' ∉ p := by
  intro p hp
  rw [(List.mem_replicate.1 hp).2]
  decide

theorem not_mem_moduleWay (ha : ∀ p ∈ above, IsClean p) (hl : IsClean last)
    (start : List (List Char)) : ∀ p ∈ moduleWay start above last, '/' ∉ p := by
  intro p hp
  rcases List.mem_append.1 hp with hp | hp
  · exact not_mem_replicate_dots _ p hp
  · rcases List.mem_append.1 hp with hp | hp
    · exact (ha p (List.mem_of_mem_drop hp)).no_slash
    · rw [List.mem_singleton.1 hp]
      exact hl.no_slash

/-- The text of the way to a module that is, with its marker, the directory or above it: it only goes
up. -/
theorem moduleSpecifier_above (h : normal (target ++ marker) <+: normal dir) :
    moduleSpecifier target dir =
      if (normal dir).length = (normal (target ++ marker)).length then ['.']
      else ['/'].intercalate
        (List.replicate ((normal dir).length - (normal (target ++ marker)).length) ['.', '.']) := by
  have hle := h.length_le
  have hparts : relativeParts (normal (target ++ marker)) (normal dir) =
      List.replicate ((normal dir).length - (normal (target ++ marker)).length) ['.', '.'] := by
    rw [relativeParts, sharedLength_of_prefix h, List.drop_length, List.append_nil]
  split
  · rename_i heq
    rw [heq, Nat.sub_self] at hparts
    have hway : relative (target ++ marker) dir = ['.'] := by
      unfold relative
      rw [hparts]
      rfl
    rw [moduleSpecifier, hway]
    rfl
  · rename_i hne
    obtain ⟨n, hn⟩ : ∃ n, (normal dir).length - (normal (target ++ marker)).length = n + 1 :=
      Nat.exists_eq_add_one.2 (by omega)
    rw [hn] at hparts ⊢
    have hdots : ['/'].intercalate (List.replicate (n + 1) ['.', '.']) =
        ['/'].intercalate (List.replicate n ['.', '.'] ++ [['.']]) ++ ['.'] := by
      rw [List.replicate_succ', ← intercalate_concat]
      rfl
    have hvisible : visiblyRelative (['/'].intercalate (List.replicate (n + 1) ['.', '.'])) =
        ['/'].intercalate (List.replicate (n + 1) ['.', '.']) := by
      cases n <;> rfl
    rw [moduleSpecifier, relative_of_parts hparts (by simp), hdots, dropMarker_concat_dot, ← hdots,
      hvisible]

/-- Where the way to a module leads from any directory: up as far as from the directory it was
computed for, then down to the module. -/
theorem resolve_moduleSpecifier (ht : normal (target ++ marker) = above ++ [last ++ marker])
    (ha : ∀ p ∈ above, IsClean p) (hl : IsClean last)
    (h : ¬ above ++ [last ++ marker] <+: normal dir) (origin : List Char) :
    resolve origin (moduleSpecifier target dir) =
      climb (normal origin) ((normal dir).length -
        sharedLength (normal dir) (above ++ [last ++ marker])) ++
        (above.drop (sharedLength (normal dir) (above ++ [last ++ marker])) ++ [last]) := by
  have hclean : ∀ k, ∀ p ∈ above.drop k ++ [last], IsClean p := by
    intro k p hp
    rcases List.mem_append.1 hp with hp | hp
    · exact ha p (List.mem_of_mem_drop hp)
    · rwa [List.mem_singleton.1 hp]
  rw [moduleSpecifier_beside ht h,
    resolve_visiblyRelative origin (by simp [moduleWay]) (not_mem_moduleWay ha hl _), moduleWay,
    List.foldl_append, foldl_enter_replicate, foldl_enter_of_isClean (hclean _)]

/-- From the directory it was computed for, the way to a module leads to the module. -/
theorem resolve_moduleSpecifier_self (ht : normal (target ++ marker) = above ++ [last ++ marker])
    (ha : ∀ p ∈ above, IsClean p) (hl : IsClean last)
    (h : ¬ above ++ [last ++ marker] <+: normal dir) {origin : List Char}
    (ho : normal origin = normal dir) :
    resolve origin (moduleSpecifier target dir) = above ++ [last] := by
  rw [resolve_moduleSpecifier ht ha hl h, ho, climb, Nat.sub_sub_self (sharedLength_le_left _ _),
    take_sharedLength_above h, ← List.append_assoc, List.take_append_drop]

/-- The way to a module that is, with its marker, the directory itself or one above it, only leads
up: to that directory. -/
theorem resolve_moduleSpecifier_above (h : normal (target ++ marker) <+: normal dir)
    (origin : List Char) :
    resolve origin (moduleSpecifier target dir) =
      climb (normal origin) ((normal dir).length - (normal (target ++ marker)).length) := by
  rw [moduleSpecifier_above h]
  split
  · rename_i heq
    rw [heq, Nat.sub_self, resolve, normal_append]
    simp [climb, enter, List.splitOn_eq_singleton]
  · rename_i hne
    have hle := h.length_le
    have hdots : List.replicate ((normal dir).length - (normal (target ++ marker)).length)
        ['.', '.'] ≠ [] := by
      rw [Ne, List.replicate_eq_nil_iff]
      omega
    rw [resolve, normal_append, List.splitOn_intercalate '/' (not_mem_replicate_dots _) hdots,
      foldl_enter_replicate]

theorem climb_of_prefix (h : ps <+: qs) : climb qs (qs.length - ps.length) = ps := by
  obtain ⟨rest, rfl⟩ := h
  rw [climb, List.length_append, Nat.add_sub_cancel_left, Nat.add_sub_cancel, List.take_left]

/-- From the directory it was computed for, the way to such a module leads to the module with the
marker. -/
theorem resolve_moduleSpecifier_above_self (h : normal (target ++ marker) <+: normal dir) :
    resolve dir (moduleSpecifier target dir) = normal (target ++ marker) := by
  rw [resolve_moduleSpecifier_above h dir, climb_of_prefix h]

end ModuleSpecifier

end SchemaArtifacts.Path
