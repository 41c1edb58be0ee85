import SchemaArtifacts.Proofs.Export.Naming
import SchemaArtifacts.Proofs.Name.Containment

/-!
# Where a module specifier leads

An exporter names another artifact by a relative path, to be followed from the directory of its own.
Joined to that directory and normalised, the path is the other artifact's, written in the same way:
with as many leading slashes, and without dot parts. There is one exception. The way is computed to
the target with the marker behind it, so if there is a directory of that path on the way to the
exporter's own artifact, the way ends there and does not name the target at all.

## Main definitions

* `Path.leading`, `Path.normalText` — the leading slashes and the normal form of an absolute path
* `Path.joined` — a relative path behind a directory

## Main results

* `Path.resolve_moduleSpecifier_iff` — when the way to a module leads to it, component by component
* `Name.leading_joined_of_segments` — a path from the directory of a name keeps the leading slashes
* `Exporter.specifier_leads_iff` — when the path by which an exporter names an artifact leads there
-/

namespace SchemaArtifacts

namespace Path

variable {a b path dir last spec target : List Char} {ps above : List (List Char)}

/-- The leading slashes of a path that count: two are kept, any other number reads as one. -/
def leading (path : List Char) : List Char :=
  match (path.takeWhile (· = '/')).length with
  | 0 => []
  | 2 => ['/', '/']
  | _ => ['/']

/-- The text of an absolute path without empty and dot parts, its parent parts followed. -/
def normalText (path : List Char) : List Char := leading path ++ ['/'].intercalate (normal path)

/-- A path behind a directory; an absolute path stays by itself. -/
def joined (dir path : List Char) : List Char :=
  if path.head? = some '/' then path
  else if dir.isEmpty || dir.getLast? = some '/' then dir ++ path
  else dir ++ '/' :: path

/-! ## Components -/

/-- A relative path behind a directory leads where it leads from that directory. -/
theorem normal_joined (h : path.head? ≠ some '/') (dir : List Char) :
    normal (joined dir path) = resolve dir path := by
  rw [joined, if_neg h, resolve]
  split
  · rename_i hslash
    obtain rfl | ⟨init, c, rfl⟩ := List.eq_nil_or_concat' dir
    · simp
    · obtain rfl : c = '/' := by simpa using hslash
      rw [List.append_assoc, List.singleton_append, normal_append, normal_append,
        normal_append_slash]
  · rfl

/-- The way from a directory to a module leads to the module, unless the module with the marker is
the directory or one above it. -/
theorem resolve_moduleSpecifier_iff (h : IsModule target above last) :
    resolve dir (moduleSpecifier target dir) = normal target ↔
      ¬ normal (target ++ marker) <+: normal dir := by
  obtain ⟨ht, hm, ha, hl⟩ := h
  constructor
  · -- The way climbs to the module with the marker, which is longer than the module.
    intro hleads hprefix
    have hend : resolve dir (moduleSpecifier target dir) = above ++ [last ++ marker] := by
      rw [resolve_moduleSpecifier_above_self hprefix, hm]
    rw [hleads, ht] at hend
    have hsame := congrArg List.length (List.singleton_inj.1 (List.append_cancel_left hend))
    simp [marker] at hsame
  · intro hbeside
    rw [hm] at hbeside
    rw [resolve_moduleSpecifier_self hm ha hl hbeside rfl, ht]

/-! ## Leading slashes -/

theorem head?_intercalate_append (h : ∀ p ∈ ps, p ≠ [] ∧ '/' ∉ p) (hne : ps ≠ [])
    (rest : List Char) : (['/'].intercalate ps ++ rest).head? ≠ some '/' := by
  cases ps with
  | nil => exact absurd rfl hne
  | cons p ps =>
    obtain ⟨⟨hp, hslash⟩, -⟩ := List.forall_mem_cons.1 h
    obtain ⟨c, p, rfl⟩ := List.exists_cons_of_ne_nil hp
    have hc : c ≠ '/' := fun heq => hslash (heq ▸ List.mem_cons_self)
    cases ps with
    | nil => simpa using hc
    | cons q ps => simpa [List.intercalate_cons_cons] using hc

theorem head?_intercalate (h : ∀ p ∈ ps, p ≠ [] ∧ '/' ∉ p) :
    (['/'].intercalate ps).head? ≠ some '/' := by
  by_cases hne : ps = []
  · simp [hne]
  · simpa using head?_intercalate_append h hne []

/-- The way from a directory to a module is no absolute path. -/
theorem head?_moduleSpecifier (target dir : List Char) :
    (moduleSpecifier target dir).head? ≠ some '/' := by
  have hparts : ∀ p ∈ relativeParts (normal (target ++ marker)) (normal dir), p ≠ [] ∧ '/' ∉ p := by
    intro p hp
    obtain hup | hdown := List.mem_append.1 hp
    · rw [(List.mem_replicate.1 hup).2]
      decide
    · have hclean := isClean_of_mem_normal _ p (List.mem_of_mem_drop hdown)
      exact ⟨hclean.ne_nil, hclean.no_slash⟩
  have hway : (relative (target ++ marker) dir).head? ≠ some '/' := by
    unfold relative
    split
    · simp
    · exact head?_intercalate hparts
  have hdropped : (dropMarker (relative (target ++ marker) dir)).head? ≠ some '/' := by
    unfold dropMarker
    split
    · rw [List.head?_take]
      split
      · simp
      · exact hway
    · exact hway
  unfold moduleSpecifier visiblyRelative
  split
  · exact hdropped
  · simp

/-- What does not begin with a slash adds no leading one. -/
theorem leading_append (ha : a.head? ≠ some '/') (hb : b.head? ≠ some '/') (path : List Char) :
    leading (path ++ a) = leading (path ++ b) := by
  have hnone : ∀ s : List Char, s.head? ≠ some '/' → s.takeWhile (· = '/') = [] := by
    intro s hs
    cases s with
    | nil => rfl
    | cons c s => exact List.takeWhile_cons_of_neg (by simpa using hs)
  unfold leading
  rw [List.takeWhile_append, List.takeWhile_append, hnone a ha, hnone b hb]

theorem leading_append_of_not_all (h : ¬ a.all (· = '/')) (b : List Char) :
    leading (a ++ b) = leading a := by
  have hshort : (a.takeWhile (· = '/')).length ≠ a.length := by
    intro heq
    have hall : (a.takeWhile (· = '/')).all (· = '/') := List.all_takeWhile
    rw [(List.takeWhile_prefix _).eq_of_length heq] at hall
    exact h hall
  unfold leading
  rw [List.takeWhile_append, if_neg hshort]

theorem exists_eq_dropTrailing_append (s : List Char) :
    ∃ rest, s = Text.dropTrailing '/' s ++ rest ∧ rest.all (· = '/') := by
  refine ⟨(s.reverse.takeWhile (· = '/')).reverse, ?_, ?_⟩
  · rw [Text.dropTrailing, ← List.reverse_append, List.takeWhile_append_dropWhile,
      List.reverse_reverse]
  · rw [List.all_reverse]
    exact List.all_takeWhile

/-- A path joined to the directory of another begins with the slashes of the other. -/
theorem leading_joined_dirname (hl : '/' ∉ last) (hs : spec.head? ≠ some '/') (head : List Char) :
    leading (joined (dirname (head ++ '/' :: last)) spec) = leading (head ++ '/' :: spec) := by
  have hdir : dirname (head ++ '/' :: last) =
      if head.all (· = '/') then head ++ ['/'] else Text.dropTrailing '/' head := by
    unfold dirname
    rw [Text.cutLast?_eq_some_iff.2 ⟨rfl, hl⟩]
  rw [hdir, joined, if_neg hs]
  by_cases hall : head.all (· = '/')
  · rw [if_pos hall, if_pos (by simp), List.append_assoc]
    rfl
  · rw [if_neg hall]
    obtain ⟨rest, hhead, hrest⟩ := exists_eq_dropTrailing_append head
    generalize Text.dropTrailing '/' head = dir at hhead
    have hdir : ¬ dir.all (· = '/') := by
      intro hdir
      rw [hhead, List.all_append, hdir, hrest] at hall
      exact hall rfl
    rw [hhead, List.append_assoc, leading_append_of_not_all hdir]
    split
    · exact leading_append_of_not_all hdir spec
    · exact leading_append_of_not_all hdir _

theorem intercalate_injOn {ps qs : List (List Char)} (hp : ∀ p ∈ ps, IsClean p)
    (hq : ∀ q ∈ qs, IsClean q) (h : ['/'].intercalate ps = ['/'].intercalate qs) : ps = qs := by
  have hsplit : ∀ ps : List (List Char), (∀ p ∈ ps, IsClean p) →
      ((['/'].intercalate ps).splitOn '/').filter (fun p => !p.isEmpty) = ps := by
    intro ps hps
    by_cases hne : ps = []
    · subst hne
      rfl
    · rw [List.splitOn_intercalate '/' (fun p hp => (hps p hp).no_slash) hne]
      exact List.filter_eq_self.2 fun p hp => by simpa using (hps p hp).ne_nil
  rw [← hsplit ps hp, h, hsplit qs hq]

theorem intercalate_append_singleton (h : ps ≠ []) (last : List Char) :
    ['/'].intercalate (ps ++ [last]) = ['/'].intercalate ps ++ '/' :: last := by
  induction ps with
  | nil => exact absurd rfl h
  | cons p ps ih =>
    cases ps with
    | nil => simp [List.intercalate_cons_cons]
    | cons q ps =>
      rw [List.cons_append, List.intercalate_cons_of_ne_nil (by simp), ih (by simp),
        List.intercalate_cons_cons]
      simp

/-- Paths with the same leading slashes have the same normalised text if they lead to the same. -/
theorem normalText_eq_iff (h : leading a = leading b) :
    normalText a = normalText b ↔ normal a = normal b := by
  rw [normalText, normalText, h]
  refine ⟨fun htext => ?_, fun hsame => by rw [hsame]⟩
  exact intercalate_injOn (isClean_of_mem_normal a) (isClean_of_mem_normal b)
    (List.append_cancel_left htext)

end Path

namespace Name

open SchemaArtifacts.Path

variable {root : AbsolutePath} {own other : String} {home target : List (List Char)}

/-- Below a root, the texts of all paths begin alike, up to and with a slash. -/
theorem exists_toString_join (root : AbsolutePath) : ∃ above : List Char,
    ∀ ss : List (List Char), ss ≠ [] → (root.join (ss.map String.ofList)).toString.toList =
      above ++ '/' :: ['/'].intercalate ss := by
  have htext : ∀ ss : List (List Char), ("/".intercalate (ss.map String.ofList)).toList =
      ['/'].intercalate ss := by
    intro ss
    rw [String.toList_intercalate, List.map_map]
    simp [Function.comp_def]
  by_cases hroot : root.parts = []
  · refine ⟨if root.doubled then ['/'] else [], fun ss hne => ?_⟩
    have htop : root.toString.toList = (if root.doubled then ['/'] else []) ++ ['/'] := by
      cases hd : root.doubled <;> simp [AbsolutePath.toString, hroot, hd]
    rw [AbsolutePath.toString_join root (by simpa using hne), if_pos hroot, String.append_empty,
      String.toList_append, htop, htext, List.append_assoc]
    rfl
  · refine ⟨root.toString.toList, fun ss hne => ?_⟩
    rw [AbsolutePath.toString_join root (by simpa using hne), if_neg hroot, String.toList_append,
      String.toList_append, htext, List.append_assoc]
    rfl

/-- A path that is joined to the directory of a name begins with the same slashes as the path of any
other name. -/
theorem leading_joined_of_segments (root : AbsolutePath) (hown : segments own = .ok home)
    (hother : segments other = .ok target) {spec : List Char} (hs : spec.head? ≠ some '/') :
    leading (joined (dirname (root.join (home.map String.ofList)).toString.toList) spec) =
      leading (root.join (target.map String.ofList)).toString.toList := by
  have hparts : ∀ {name : String} {ss : List (List Char)}, segments name = .ok ss →
      ∀ s ∈ ss, s ≠ [] ∧ '/' ∉ s := fun hss s hs =>
    ⟨(isClean_of_segments hss s hs).ne_nil, (isClean_of_segments hss s hs).no_slash⟩
  have htarget := head?_intercalate (hparts hother)
  obtain ⟨above, htext⟩ := exists_toString_join root
  rw [htext target (shape_of_segments hother).2.2, htext home (shape_of_segments hown).2.2]
  obtain ⟨init, last, rfl⟩ :=
    (List.eq_nil_or_concat' home).resolve_left (shape_of_segments hown).2.2
  have hslash : '/' ∉ last := (hparts hown last (by simp)).2
  by_cases hnil : init = []
  · subst hnil
    rw [List.nil_append, List.intercalate_singleton, leading_joined_dirname hslash hs,
      List.append_cons, List.append_cons above '/' (['/'].intercalate target)]
    exact leading_append hs htarget _
  · have hinit := head?_intercalate_append (fun s hmem => hparts hown s (by simp [hmem])) hnil
      ('/' :: spec)
    rw [intercalate_append_singleton hnil, ← List.cons_append, ← List.append_assoc,
      leading_joined_dirname hslash hs, List.append_assoc, List.cons_append, List.append_cons,
      List.append_cons above '/' (['/'].intercalate target)]
    exact leading_append hinit htarget _

/-- Below a root, the way from the directory of a name to another name leads there unless the other,
with the marker, is that directory or one above it. -/
theorem moduleSpecifier_leads_iff (root : AbsolutePath) (hown : segments own = .ok home)
    (hother : segments other = .ok target) {path dir : List Char}
    (hpath : path = (root.join (target.map String.ofList)).toString.toList)
    (hdir : dir = dirname (root.join (home.map String.ofList)).toString.toList) :
    normalText (joined dir (moduleSpecifier path dir)) = normalText path ↔
      ¬ normal (path ++ marker) <+: normal dir := by
  have hrelative := head?_moduleSpecifier path dir
  obtain ⟨above, last, hmodule, -⟩ := exists_isModule root hother
  have hleading := leading_joined_of_segments root hown hother hrelative
  rw [← hdir, ← hpath] at hleading
  rw [← hpath] at hmodule
  rw [normalText_eq_iff hleading, normal_joined hrelative, resolve_moduleSpecifier_iff hmodule]

end Name

namespace Exporter

open SchemaArtifacts.Path

/-- For every name that the cache accepts: the path by which an exporter names its artifact, joined
to the exporter's own directory and normalised, is the artifact's path in normal form if and only if
this path with the marker is neither that directory nor one above it. -/
theorem specifier_leads_iff {c : Cache} {d : Document} {e : Exporter} {name : Json}
    {own target : String} (h : e.StandsFor c.root d)
    (hown : ((Cache.shelf.locate d.name).run c).1 = .ok own)
    (hname : ((Cache.shelf.locate name).run c).1 = .ok target) :
    ∃ dir spec, ((homeDirectory Cache.shelf).run (c, e)).1 = .ok dir ∧
      ((pathTo Cache.shelf name).run (c, e)).1 = .ok spec ∧
      (normalText (joined dir.toList spec.toList) = normalText target.toList ↔
        ¬ normal (target.toList ++ marker) <+: normal dir.toList) := by
  obtain ⟨dir, ⟨n, home, hhome, hdir⟩, hrunDir, hways⟩ := exists_ways h hown
  obtain ⟨m, ss, hss, rfl, hrunSpec⟩ := hways name target hname
  refine ⟨dir, _, hrunDir, hrunSpec, ?_⟩
  rw [String.toList_ofList]
  exact Name.moduleSpecifier_leads_iff c.root hhome hss rfl hdir

/-- From a directory whose name is that of an artifact with the marker, the way to this artifact
does not lead there, and the way to an artifact below the directory does. -/
theorem specifier_leads_iff_above : ∃ (c : Cache) (d : Document) (e : Exporter)
    (dir up down : String), c.root = .ofString { parts := ["w"] } "../x//./y" ∧
      ((Cache.shelf.locate d.name).run c).1 = .ok "/w/../x/y/b.js/a" ∧
      ((homeDirectory Cache.shelf).run (c, e)).1 = .ok dir ∧
      ((pathTo Cache.shelf (.string "b")).run (c, e)).1 = .ok up ∧
      normalText (joined dir.toList up.toList) ≠ normalText "/w/../x/y/b".toList ∧
      ((pathTo Cache.shelf (.string "b.js/c/d")).run (c, e)).1 = .ok down ∧
      normalText (joined dir.toList down.toList) = normalText "/w/../x/y/b.js/c/d".toList := by
  let c : Cache := { root := .ofString { parts := ["w"] } "../x//./y" }
  let d : Document := { name := .string "b.js/a", imports := [], used := [] }
  let e : Exporter := { doc := some d, format := .javaScript }
  have hfor : e.StandsFor c.root d := ⟨rfl, fun _ hdir => by cases hdir⟩
  have hown : ((Cache.shelf.locate d.name).run c).1 = .ok "/w/../x/y/b.js/a" :=
    Act.eq_ok_of_toOption (by decide +kernel)
  have hhome : ((homeDirectory Cache.shelf).run (c, e)).1 = .ok "/w/../x/y/b.js" :=
    Act.eq_ok_of_toOption (by decide +kernel)
  have hup : ((Cache.shelf.locate (.string "b")).run c).1 = .ok "/w/../x/y/b" :=
    Act.eq_ok_of_toOption (by decide +kernel)
  have hdown : ((Cache.shelf.locate (.string "b.js/c/d")).run c).1 = .ok "/w/../x/y/b.js/c/d" :=
    Act.eq_ok_of_toOption (by decide +kernel)
  obtain ⟨dir, up, hdir, hpathUp, hleadsUp⟩ := specifier_leads_iff hfor hown hup
  obtain ⟨dir', down, hdir', hpathDown, hleadsDown⟩ := specifier_leads_iff hfor hown hdown
  obtain rfl : "/w/../x/y/b.js" = dir := by simpa using hhome.symm.trans hdir
  obtain rfl : "/w/../x/y/b.js" = dir' := by simpa using hhome.symm.trans hdir'
  refine ⟨c, d, e, _, up, down, rfl, hown, hdir, hpathUp, ?_, hpathDown, hleadsDown.2 ?_⟩
  · rw [Ne, hleadsUp, not_not]
    decide +kernel
  · decide +kernel

end Exporter
end SchemaArtifacts
