import Mathlib.Algebra.Order.BigOperators.Group.List
import Mathlib.Algebra.Order.Ring.Nat
import SchemaArtifacts.Proofs.Model.Collect

/-!
# The order of collected documents

The documents that roots lead to are visited first come, first served. Imports may form cycles, and
a name may wait in the queue more than once; but a name is expanded once only, so the links that are
still to come bound the visits that are left. While the names of one distance are visited, those of
the next one gather behind them, and so names are visited by their distance.

## Main definitions

* `Schema.named?` — the document of a name that is a text
* `Schema.Links` — one step from a document to a name that it imports
* `Schema.LeadsIn`, `Schema.IsAt` — a number of steps from the roots, and the least such number
* `Schema.Visits` — the names that are visited one after the other, however long it takes
* `Schema.Frontier` — what is seen and what waits while the names of one distance are visited
* `Schema.IsBreadthFirst` — the order in which names are visited breadth first

## Main results

* `Schema.exists_visits` — the visits come to an end
* `Schema.Visits.visit_eq` — a bounded visit takes in the documents of what is visited
* `Schema.Visits.isBreadthFirst` — visits go by distance
* `Schema.collect_breadth_first` — what is collected, and in which order
-/

namespace SchemaArtifacts
namespace Schema

variable {s : Schema} {roots seen queue now next order : List String} {d : Document}
  {name other : String} {m n : Nat}

/-- The document of a name that is a text. -/
def named? (s : Schema) (name : String) : Option Document := Json.find? (.string name) s.documents

/-- The document of a name imports another name by an alias that it uses, and that is not the alias
of the built-in types. -/
def Links (s : Schema) (name other : String) : Prop :=
  ∃ d, s.named? name = some d ∧ ∃ alias_ ∈ d.used, alias_ ≠ Namespace.builtinAlias ∧
    d.fullName? alias_ = some (.string other)

/-- A number of steps leads from one of the roots to a name. -/
inductive LeadsIn (s : Schema) (roots : List String) : Nat → String → Prop
  | root {name : String} (h : name ∈ roots) : LeadsIn s roots 0 name
  | step {n : Nat} {name other : String} (h : LeadsIn s roots n name) (link : s.Links name other) :
    LeadsIn s roots (n + 1) other

/-- The distance of a name from the roots is the least number of steps that leads to it. -/
def IsAt (s : Schema) (roots : List String) (n : Nat) (name : String) : Prop :=
  s.LeadsIn roots n name ∧ ∀ m, s.LeadsIn roots m name → n ≤ m

/-- The order in which names are visited breadth first: those with documents that some steps lead
to, each of them once, nearer ones first, and the roots before all others. -/
structure IsBreadthFirst (s : Schema) (roots names : List String) : Prop where
  mem_iff : ∀ name, name ∈ names ↔ (s.named? name).isSome ∧ ∃ n, s.LeadsIn roots n name
  nodup : names.Nodup
  nearer : names.Pairwise fun name other =>
    ∃ m n, s.IsAt roots m name ∧ s.IsAt roots n other ∧ m ≤ n
  roots_first : (roots.eraseDups.filter fun name => (s.named? name).isSome) <+: names

/-! ## Links -/

/-- The names that the document of a name imports; none without a document. -/
def linkNames (s : Schema) (name : String) : List String :=
  (s.named? name).elim [] fun d => d.links.filterMap Json.text?

theorem exists_entry_of_named? (h : s.named? name = some d) : (.string name, d) ∈ s.documents := by
  obtain ⟨key, hentry, hsame⟩ := Json.exists_of_find? h
  have hkey : key = .string name := Json.eq_string_of_text? (Json.text?_eq_of_sameKey hsame)
  rwa [hkey] at hentry

theorem IsKeyed.name_of_named? (h : s.IsKeyed) (hd : s.named? name = some d) :
    d.name = .string name :=
  Json.eq_string_of_text? (h.keys _ (exists_entry_of_named? hd)).symm

theorem mem_links_iff {d : Namespace} {full : Json} : full ∈ d.links ↔
    ∃ alias_ ∈ d.used, alias_ ≠ Namespace.builtinAlias ∧ d.fullName? alias_ = some full := by
  simp only [Namespace.links, Namespace.foreignImports, Namespace.usedImports, List.mem_map,
    List.mem_filter, List.mem_filterMap, List.mem_mergeSort, Option.map_eq_some_iff, bne_iff_ne]
  constructor
  · rintro ⟨_, ⟨⟨alias_, hused, full, hfull, rfl⟩, hforeign⟩, rfl⟩
    exact ⟨alias_, hused, hforeign, hfull⟩
  · rintro ⟨alias_, hused, hforeign, hfull⟩
    exact ⟨(alias_, full), ⟨⟨alias_, hused, full, hfull, rfl⟩, hforeign⟩, rfl⟩

theorem mem_linkNames_iff : other ∈ s.linkNames name ↔ s.Links name other := by
  unfold linkNames Links
  cases h : s.named? name with
  | none => simp
  | some d =>
    simp only [Option.elim_some, Option.some.injEq, exists_eq_left', List.mem_filterMap,
      ← mem_links_iff]
    constructor
    · rintro ⟨full, hfull, htext⟩
      rwa [← Json.eq_string_of_text? htext]
    · exact fun hfull => ⟨_, hfull, rfl⟩

theorem IsTyped.links_eq (h : s.IsTyped) (hd : s.named? name = some d) :
    d.links = (s.linkNames name).map .string := by
  have htexts : ∀ full ∈ d.links, ∃ text, full = .string text := by
    intro full hfull
    obtain ⟨import_, himport, rfl⟩ := Namespace.exists_import_of_mem_links hfull
    exact h.links _ (exists_entry_of_named? hd) import_ himport
  rw [linkNames, hd, Option.elim_some, Json.map_string_texts htexts]

/-! ## Visits -/

/-- The names of a queue are visited first come, first served, each of them once, and the names that
the document of a visited name imports go to the end of the queue. -/
inductive Visits (s : Schema) : (seen queue order : List String) → Prop
  | done {seen : List String} : Visits s seen [] []
  | again {seen queue order : List String} {name : String} (h : name ∈ seen)
    (rest : Visits s seen queue order) : Visits s seen (name :: queue) order
  | first {seen queue order : List String} {name : String} (h : name ∉ seen)
    (rest : Visits s (name :: seen) (queue ++ s.linkNames name) order) :
    Visits s seen (name :: queue) (name :: order)

theorem isSeen_map_string (seen : List String) (name : String) :
    isSeen (seen.map .string) (.string name) = decide (name ∈ seen) := by
  rw [isSeen, List.any_map, Bool.eq_iff_iff]
  simp [Function.comp_def]

/-- The links of a document that has not been seen. -/
def linksAhead (seen : List String) (entry : Json × Document) : Nat :=
  if isSeen (seen.map .string) entry.1 then 0 else entry.2.links.length

/-- At least as many visits as are still to come: those that wait, and those that links may add. -/
def visitsLeft (s : Schema) (seen queue : List String) : Nat :=
  queue.length + (s.documents.map (linksAhead seen)).sum

theorem linksAhead_cons_le (entry : Json × Document) :
    linksAhead (name :: seen) entry ≤ linksAhead seen entry := by
  unfold linksAhead
  cases hseen : isSeen (seen.map .string) entry.1 with
  | true =>
    have hstill : isSeen ((name :: seen).map .string) entry.1 := by
      simp only [isSeen, List.map_cons, List.any_cons, Bool.or_eq_true]
      exact Or.inr hseen
    rw [if_pos hstill]
    exact Nat.zero_le _
  | false =>
    split
    · exact Nat.zero_le _
    · exact Nat.le_refl _

/-- A name that is visited for the first time adds its links, and these are no longer ahead. -/
theorem visitsLeft_first (h : name ∉ seen) :
    s.visitsLeft (name :: seen) (queue ++ s.linkNames name) <
      s.visitsLeft seen (name :: queue) := by
  suffices hsum : (s.linkNames name).length + (s.documents.map (linksAhead (name :: seen))).sum ≤
      (s.documents.map (linksAhead seen)).sum by
    simp only [visitsLeft, List.length_append, List.length_cons]
    omega
  unfold linkNames
  cases hd : s.named? name with
  | none =>
    rw [Option.elim_none, List.length_nil, Nat.zero_add]
    exact List.sum_le_sum fun entry _ => linksAhead_cons_le entry
  | some d =>
    obtain ⟨before, after, hsplit⟩ := List.append_of_mem (exists_entry_of_named? hd)
    have hbefore : (before.map (linksAhead (name :: seen))).sum ≤
        (before.map (linksAhead seen)).sum :=
      List.sum_le_sum fun entry _ => linksAhead_cons_le entry
    have hafter : (after.map (linksAhead (name :: seen))).sum ≤
        (after.map (linksAhead seen)).sum :=
      List.sum_le_sum fun entry _ => linksAhead_cons_le entry
    have hthen : linksAhead (name :: seen) (.string name, d) = 0 := by
      rw [linksAhead, isSeen_map_string, decide_eq_true List.mem_cons_self]
      rfl
    have hnow : linksAhead seen (.string name, d) = d.links.length := by
      rw [linksAhead, isSeen_map_string, decide_eq_false h]
      rfl
    have hlength := List.length_filterMap_le Json.text? d.links
    simp only [Option.elim_some, hsplit, List.map_append, List.map_cons, List.sum_append,
      List.sum_cons, hthen, hnow]
    omega

/-- The visits come to an end. -/
theorem exists_visits (s : Schema) (seen queue : List String) :
    ∃ order, s.Visits seen queue order := by
  induction hleft : s.visitsLeft seen queue using Nat.strong_induction_on
    generalizing seen queue with
  | _ left ih =>
    subst hleft
    cases queue with
    | nil => exact ⟨[], .done⟩
    | cons name queue =>
      by_cases h : name ∈ seen
      · have hless : s.visitsLeft seen queue < s.visitsLeft seen (name :: queue) := by
          simp [visitsLeft]
        obtain ⟨order, hvisits⟩ := ih _ hless seen queue rfl
        exact ⟨order, .again h hvisits⟩
      · obtain ⟨order, hvisits⟩ := ih _ (visitsLeft_first h) _ _ rfl
        exact ⟨name :: order, .first h hvisits⟩

/-- A visit whose bound is large enough takes in the documents of the names that are visited. -/
theorem Visits.visit_eq (h : s.IsTyped) (hvisits : s.Visits seen queue order) {bound : Nat}
    (hbound : s.visitsLeft seen queue ≤ bound) :
    visit s bound (seen.map .string) (queue.map .string) = .ok (order.filterMap s.named?) := by
  -- Along the visit. A name seen before shortens the queue, and a new one uses up links that are
  -- still open, so the bound suffices for the rest.
  induction hvisits generalizing bound with
  | done => cases bound <;> rfl
  | @again seen queue order name hseen _ ih =>
    cases bound with
    | zero => simp [visitsLeft] at hbound
    | succ bound =>
      have hrest : s.visitsLeft seen queue ≤ bound := by
        simp only [visitsLeft, List.length_cons] at hbound ⊢
        omega
      simp only [visit, List.map_cons, Json.asKey_string, bind, Except.bind, isSeen_map_string,
        hseen, decide_true, if_true]
      exact ih hrest
  | @first seen queue order name hnew _ ih =>
    cases bound with
    | zero => simp [visitsLeft] at hbound
    | succ bound =>
      have hless : s.visitsLeft (name :: seen) (queue ++ s.linkNames name) <
          s.visitsLeft seen (name :: queue) := visitsLeft_first hnew
      have hrest := @ih bound (by omega)
      simp only [visit, List.map_cons, Json.asKey_string, bind, Except.bind, isSeen_map_string,
        hnew, decide_false, Bool.false_eq_true, if_false]
      cases hd : s.named? name with
      | none =>
        have hfound : Json.find? (.string name) s.documents = none := hd
        simp only [linkNames, hd, Option.elim_none, List.append_nil, List.map_cons] at hrest
        rw [hfound, List.filterMap_cons_none hd]
        exact hrest
      | some d =>
        have hfound : Json.find? (.string name) s.documents = some d := hd
        rw [List.map_append, ← h.links_eq hd, List.map_cons] at hrest
        rw [hfound, List.filterMap_cons_some hd]
        simp only [hrest]
        rfl

/-! ## Distances -/

/-- Names of distance `n` are being visited: `now` holds those that wait, `next` the names found so
far that are one step further. -/
structure Frontier (s : Schema) (roots : List String) (n : Nat) (seen now next : List String) :
    Prop where
  led : ∀ name ∈ now, s.LeadsIn roots n name
  led_further : ∀ name ∈ next, s.LeadsIn roots (n + 1) name
  nearer : ∀ m < n, ∀ name, s.LeadsIn roots m name → name ∈ seen
  here : ∀ name, s.LeadsIn roots n name → name ∈ seen ∨ name ∈ now
  links : ∀ name ∈ seen, ∀ other, s.Links name other →
    other ∈ seen ∨ other ∈ now ∨ other ∈ next

namespace Frontier

theorem start (s : Schema) (roots : List String) : s.Frontier roots 0 [] roots [] where
  led _ h := .root h
  led_further _ h := nomatch h
  nearer _ h := nomatch h
  here _ h := by
    cases h with
    | root h => exact Or.inr h
  links _ h := nomatch h

/-- When no name of a distance is left, those of the next distance are all there. -/
theorem further (h : s.Frontier roots n seen [] next) : s.Frontier roots (n + 1) seen next [] where
  led := h.led_further
  led_further _ h := nomatch h
  nearer m hm name hname := by
    obtain hlt | rfl := Nat.lt_succ_iff_lt_or_eq.1 hm
    · exact h.nearer m hlt name hname
    · exact (h.here name hname).resolve_right List.not_mem_nil
  here name hname := by
    cases hname with
    | step hfrom link =>
      have hseen := (h.here _ hfrom).resolve_right List.not_mem_nil
      exact (h.links _ hseen _ link).imp_right fun hwaits => hwaits.resolve_left List.not_mem_nil
  links name hname other link :=
    (h.links name hname other link).imp_right fun hwaits =>
      Or.inl (hwaits.resolve_left List.not_mem_nil)

theorem again (h : s.Frontier roots n seen (name :: now) next) (hname : name ∈ seen) :
    s.Frontier roots n seen now next where
  led other hother := h.led other (List.mem_cons_of_mem _ hother)
  led_further := h.led_further
  nearer := h.nearer
  here other hother := by
    obtain hseen | hwaits := h.here other hother
    · exact Or.inl hseen
    · obtain rfl | hwaits := List.mem_cons.1 hwaits
      · exact Or.inl hname
      · exact Or.inr hwaits
  links from_ hfrom other link := by
    obtain hseen | hwaits | hnext := h.links from_ hfrom other link
    · exact Or.inl hseen
    · obtain rfl | hwaits := List.mem_cons.1 hwaits
      · exact Or.inl hname
      · exact Or.inr (Or.inl hwaits)
    · exact Or.inr (Or.inr hnext)

/-- What the visited name links to is one step further than the name. -/
theorem first (h : s.Frontier roots n seen (name :: now) next) :
    s.Frontier roots n (name :: seen) now (next ++ s.linkNames name) where
  led other hother := h.led other (List.mem_cons_of_mem _ hother)
  led_further other hother := by
    obtain hnext | hlink := List.mem_append.1 hother
    · exact h.led_further other hnext
    · exact .step (h.led name List.mem_cons_self) (mem_linkNames_iff.1 hlink)
  nearer m hm other hother := List.mem_cons_of_mem _ (h.nearer m hm other hother)
  here other hother := by
    obtain hseen | hwaits := h.here other hother
    · exact Or.inl (List.mem_cons_of_mem _ hseen)
    · obtain rfl | hwaits := List.mem_cons.1 hwaits
      · exact Or.inl List.mem_cons_self
      · exact Or.inr hwaits
  links from_ hfrom other link := by
    obtain rfl | hfrom := List.mem_cons.1 hfrom
    · exact Or.inr (Or.inr (List.mem_append_right _ (mem_linkNames_iff.2 link)))
    · obtain hseen | hwaits | hnext := h.links from_ hfrom other link
      · exact Or.inl (List.mem_cons_of_mem _ hseen)
      · obtain rfl | hwaits := List.mem_cons.1 hwaits
        · exact Or.inl List.mem_cons_self
        · exact Or.inr (Or.inl hwaits)
      · exact Or.inr (Or.inr (List.mem_append_left _ hnext))

theorem isAt (h : s.Frontier roots n seen (name :: now) next) (hnew : name ∉ seen) :
    s.IsAt roots n name := by
  refine ⟨h.led name List.mem_cons_self, fun m hm => ?_⟩
  by_contra hlt
  exact hnew (h.nearer m (Nat.lt_of_not_le hlt) name hm)

/-- When nothing waits any more, everything that steps lead to is seen. -/
theorem mem_seen (h : s.Frontier roots n seen [] []) (hname : s.LeadsIn roots m name) :
    name ∈ seen := by
  -- No step leads out of what is seen, and the roots are seen: they have no steps to them at all.
  have hclosed : ∀ from_ ∈ seen, ∀ other, s.Links from_ other → other ∈ seen := by
    intro from_ hfrom other link
    simpa using h.links from_ hfrom other link
  induction hname with
  | @root name hroot =>
    cases n with
    | zero => exact (h.here name (.root hroot)).resolve_right List.not_mem_nil
    | succ n => exact h.nearer 0 n.succ_pos name (.root hroot)
  | step _ link ih => exact hclosed _ ih _ link

/-- The first name of the queue has the distance that is being visited, or no name of that distance
waits any more and the next distance comes up. -/
theorem exists_head (h : s.Frontier roots n seen now next) (hqueue : name :: queue = now ++ next) :
    ∃ m now' next', n ≤ m ∧ queue = now' ++ next' ∧
      s.Frontier roots m seen (name :: now') next' := by
  cases now with
  | cons name' now =>
    obtain ⟨rfl, rfl⟩ := List.cons.inj hqueue
    exact ⟨n, now, next, Nat.le_refl n, rfl, h⟩
  | nil =>
    obtain rfl : name :: queue = next := hqueue
    exact ⟨n + 1, queue, [], n.le_succ, (List.append_nil queue).symm, h.further⟩

end Frontier

namespace Visits

/-- Visits take in every name that steps lead to, unless it was seen before, and go by distance. -/
theorem by_distance (hvisits : s.Visits seen queue order) (hqueue : queue = now ++ next)
    (h : s.Frontier roots n seen now next) :
    (∀ m name, s.LeadsIn roots m name → name ∈ seen ∨ name ∈ order) ∧
      (∀ name ∈ order, ∃ m, s.IsAt roots m name ∧ n ≤ m) ∧
      order.Pairwise fun name other =>
        ∃ m n, s.IsAt roots m name ∧ s.IsAt roots n other ∧ m ≤ n := by
  induction hvisits generalizing n now next with
  | done =>
    obtain ⟨rfl, rfl⟩ := List.append_eq_nil_iff.1 hqueue.symm
    exact ⟨fun m name hname => Or.inl (h.mem_seen hname), by simp, .nil⟩
  | again hseen _ ih =>
    obtain ⟨m, now', next', hle, hrest, hhead⟩ := h.exists_head hqueue
    obtain ⟨hall, hat, hpairs⟩ := ih hrest (hhead.again hseen)
    refine ⟨hall, fun other hother => ?_, hpairs⟩
    obtain ⟨m', hm', hle'⟩ := hat other hother
    exact ⟨m', hm', hle.trans hle'⟩
  | @first seen queue order name hnew _ ih =>
    obtain ⟨m, now', next', hle, hrest, hhead⟩ := h.exists_head hqueue
    have hname : s.IsAt roots m name := hhead.isAt hnew
    obtain ⟨hall, hat, hpairs⟩ := ih (by rw [hrest, List.append_assoc]) hhead.first
    refine ⟨fun k other hother => ?_, fun other hother => ?_, ?_⟩
    · obtain hseen | horder := hall k other hother
      · obtain rfl | hseen := List.mem_cons.1 hseen
        · exact Or.inr List.mem_cons_self
        · exact Or.inl hseen
      · exact Or.inr (List.mem_cons_of_mem _ horder)
    · obtain rfl | hother := List.mem_cons.1 hother
      · exact ⟨m, hname, hle⟩
      · obtain ⟨m', hm', hle'⟩ := hat other hother
        exact ⟨m', hm', hle.trans hle'⟩
    · refine List.pairwise_cons.2 ⟨fun other hother => ?_, hpairs⟩
      obtain ⟨m', hm', hle'⟩ := hat other hother
      exact ⟨m, m', hname, hm', hle'⟩

theorem not_mem_seen (hvisits : s.Visits seen queue order) : ∀ name ∈ order, name ∉ seen := by
  induction hvisits with
  | done => simp
  | again _ _ ih => exact ih
  | first hnew _ ih =>
    refine List.forall_mem_cons.2 ⟨hnew, fun other hother hseen => ?_⟩
    exact ih other hother (List.mem_cons_of_mem _ hseen)

theorem nodup (hvisits : s.Visits seen queue order) : order.Nodup := by
  induction hvisits with
  | done => exact List.nodup_nil
  | again _ _ ih => exact ih
  | first _ rest ih =>
    exact List.nodup_cons.2 ⟨fun hagain => rest.not_mem_seen _ hagain List.mem_cons_self, ih⟩

/-- What waits is visited first, in the order of the first occurrences. -/
theorem prefix_of_queue (hvisits : s.Visits seen queue order) (hqueue : queue = now ++ next) :
    (now.filter (· ∉ seen)).eraseDups <+: order := by
  -- What stands behind in the queue is general, since every new name puts its links there.
  induction hvisits generalizing now next with
  | done =>
    obtain ⟨rfl, -⟩ := List.append_eq_nil_iff.1 hqueue.symm
    exact List.prefix_rfl
  | @again seen queue order name hseen _ ih =>
    cases now with
    | nil => exact List.nil_prefix
    | cons name' now =>
      obtain ⟨rfl, rfl⟩ := List.cons.inj hqueue
      rw [List.filter_cons_of_neg (by simpa using hseen)]
      exact ih rfl
  | @first seen queue order name hnew _ ih =>
    cases now with
    | nil => exact List.nil_prefix
    | cons name' now =>
      obtain ⟨rfl, rfl⟩ := List.cons.inj hqueue
      have hrest := ih (List.append_assoc now next _)
      have hothers : (now.filter (· ∉ seen)).filter (fun other => !other == name) =
          now.filter (· ∉ name :: seen) := by
        rw [List.filter_filter]
        exact List.filter_congr fun other _ => by simp [beq_eq_decide, not_or]
      rw [List.filter_cons_of_pos (by simpa using hnew), List.eraseDups_cons, hothers]
      exact (List.cons_prefix_cons).2 ⟨rfl, hrest⟩

/-- Visits from the roots, told by the names that have documents, go breadth first. -/
theorem isBreadthFirst (hvisits : s.Visits [] roots order) :
    s.IsBreadthFirst roots (order.filter fun name => (s.named? name).isSome) := by
  obtain ⟨hall, hat, hpairs⟩ := hvisits.by_distance (List.append_nil roots).symm (.start s roots)
  refine ⟨fun name => ?_, hvisits.nodup.filter _, hpairs.filter _, ?_⟩
  · rw [List.mem_filter, and_comm]
    refine and_congr_right fun _ => ⟨fun hname => ?_, fun ⟨m, hm⟩ => ?_⟩
    · obtain ⟨m, hm, -⟩ := hat name hname
      exact ⟨m, hm.1⟩
    · exact (hall m name hm).resolve_left List.not_mem_nil
  · have hroots := hvisits.prefix_of_queue (List.append_nil roots).symm
    simp only [List.not_mem_nil, not_false_eq_true, decide_true, List.filter_true] at hroots
    exact hroots.filter _

end Visits

/-! ## Collecting -/

/-- The bound of a visit from the roots is large enough. -/
theorem visitsLeft_le (s : Schema) (roots : List String) : s.visitsLeft [] roots ≤
    (s.documents.map fun entry => entry.2.links.length).foldl (· + ·) roots.length := by
  rw [List.foldl_eq_apply_foldr, visitsLeft]
  exact Nat.add_le_add_left (List.sum_le_sum fun entry _ => Nat.le_refl _) _

/-- The documents of names, in the order of the names. -/
theorem IsTyped.map_named? (h : s.IsTyped) (names : List String)
    (hnames : ∀ name ∈ names, (s.named? name).isSome) :
    (names.filterMap s.named?).map some = names.map s.named? ∧
      (names.filterMap s.named?).map (fun d => d.name) = names.map .string := by
  induction names with
  | nil => exact ⟨rfl, rfl⟩
  | cons name names ih =>
    obtain ⟨hname, hrest⟩ := List.forall_mem_cons.1 hnames
    obtain ⟨d, hd⟩ := Option.isSome_iff_exists.1 hname
    obtain ⟨hdocs, htexts⟩ := ih hrest
    simp only [List.filterMap_cons_some hd, List.map_cons, hdocs, htexts, hd,
      h.keyed.name_of_named? hd, and_self]

/-- All documents are in ascending order of their names. -/
theorem IsTyped.inNameOrder_ascending (h : s.IsTyped) :
    ∃ (docs : List Document) (names : List String), s.inNameOrder = .ok docs ∧
      docs.Perm (s.documents.map Prod.snd) ∧ docs.map (fun d => d.name) = names.map .string ∧
      names.Pairwise (· < ·) := by
  have hkeys : ∀ entry ∈ s.documents, entry.1.text?.isSome := by
    intro entry hentry
    obtain ⟨name, hname⟩ := h.names entry hentry
    rw [h.keyed.keys entry hentry, hname]
    rfl
  have hsorted := Json.sortOn_texts hkeys
  generalize hentries : s.documents.mergeSort (Json.textLe Prod.fst) = entries at hsorted
  have hdocs : s.inNameOrder = .ok (entries.map Prod.snd) := by
    rw [inNameOrder, hsorted]
    rfl
  have hperm : entries.Perm s.documents := Json.perm_of_sortOn hsorted
  refine ⟨_, texts (entries.map Prod.snd), hdocs, hperm.map _, ?_, ?_⟩
  · have hnames : ∀ name ∈ (entries.map Prod.snd).map fun d => d.name,
        ∃ text, name = .string text := by
      simp only [List.forall_mem_map]
      exact fun entry hentry => h.names entry (hperm.subset hentry)
    rw [← Json.map_string_texts hnames, List.filterMap_map]
    rfl
  · have hle : (texts (entries.map Prod.snd)).Pairwise (· ≤ ·) := by
      rw [texts, List.pairwise_filterMap, List.pairwise_map]
      have hpairs : entries.Pairwise fun a b => Json.textLe Prod.fst a b := by
        rw [← hentries]
        refine List.pairwise_mergeSort (fun a b c hab hbc => ?_) (fun a b => ?_) s.documents
        · simp only [Json.textLe, decide_eq_true_eq] at hab hbc ⊢
          exact String.le_trans hab hbc
        · simpa only [Json.textLe, Bool.or_eq_true, decide_eq_true_eq] using String.le_total _ _
      refine hpairs.imp_of_mem fun {a b} ha hb hab x hx y hy => ?_
      rw [← h.keyed.keys a (hperm.subset ha)] at hx
      rw [← h.keyed.keys b (hperm.subset hb)] at hy
      simpa [Json.textLe, hx, hy] using hab
    exact (hle.and (h.keyed.nodup_inNameOrder hdocs)).imp fun hab => Std.lt_of_le_of_ne hab.1 hab.2

/-- From roots, what is collected are the documents that steps lead to, breadth first; a visit with
a larger bound takes in the same, so it has come to an end. Without roots, it is every document in
ascending order of the names. -/
theorem collect_breadth_first (h : s.IsTyped) :
    (∀ roots : List String, roots ≠ [] → ∃ (docs : List Document) (names : List String),
      s.collect (.list (roots.map .string)) = .ok docs ∧
        (∃ bound, ∀ more, visit s (bound + more) [] (roots.map .string) = .ok docs) ∧
        docs.map some = names.map s.named? ∧ docs.map (fun d => d.name) = names.map .string ∧
        s.IsBreadthFirst roots names) ∧
    ∀ roots : Json, roots = .null ∨ roots = .list [] →
      ∃ (docs : List Document) (names : List String), s.collect roots = .ok docs ∧
        docs.Perm (s.documents.map Prod.snd) ∧ docs.map (fun d => d.name) = names.map .string ∧
        names.Pairwise (· < ·) := by
  constructor
  · intro roots hne
    obtain ⟨order, hvisits⟩ := s.exists_visits [] roots
    have hvisit : ∀ bound, s.visitsLeft [] roots ≤ bound →
        visit s bound [] (roots.map .string) = .ok (order.filterMap s.named?) :=
      fun bound hbound => hvisits.visit_eq h hbound
    have hnames := h.map_named? (order.filter fun name => (s.named? name).isSome) (by simp)
    have hdocs : (order.filter fun name => (s.named? name).isSome).filterMap s.named? =
        order.filterMap s.named? := by
      rw [List.filterMap_filter]
      exact List.filterMap_congr fun name _ => by cases s.named? name <;> rfl
    rw [hdocs] at hnames
    refine ⟨_, _, ?_, ⟨s.visitsLeft [] roots, fun more => hvisit _ (Nat.le_add_right _ _)⟩,
      hnames.1, hnames.2, hvisits.isBreadthFirst⟩
    have htruthy : (Json.list (roots.map .string)).isTruthy := by
      simpa [Json.isTruthy] using hne
    rw [collect, if_pos htruthy, Json.elements_list]
    refine (hvisit _ ?_)
    simpa using s.visitsLeft_le roots
  · intro roots hroots
    have hfalse : roots.isTruthy = false := by
      obtain rfl | rfl := hroots <;> rfl
    simpa only [collect, hfalse, Bool.false_eq_true, if_false] using h.inNameOrder_ascending

/-- Two documents import each other and one imports itself; one imports only from the built-in
types, whose name has a document here that is out of reach. One root has no document and one is
there twice. -/
theorem collect_breadth_first_cycle : ∃ (s : Schema) (roots : List String) (docs : List Document),
    s.IsTyped ∧ roots = ["c", "x", "d", "a", "c"] ∧ roots ≠ [] ∧
      s.collect (.list (roots.map .string)) = .ok docs ∧
      docs.map (fun d => d.name) = ["c", "d", "a", "b"].map .string ∧
      s.IsBreadthFirst roots ["c", "d", "a", "b"] ∧
      ∃ (all : List Document) (names : List String), s.collect .null = .ok all ∧ all.length = 5 ∧
        all.map (fun d => d.name) = names.map .string ∧ names.Pairwise (· < ·) := by
  let a : Document :=
    { name := .string "a", imports := [(.string "B", .string "b")], used := ["B"] }
  let b : Document :=
    { name := .string "b", imports := [(.string "A", .string "a")], used := ["A"] }
  let c : Document :=
    { name := .string "c", imports := [(.string "C", .string "c")], used := ["C"] }
  let d : Document :=
    { name := .string "d", imports := [(.string "Primitive", .string "e")], used := ["Primitive"] }
  let e : Document :=
    { name := .string "e", imports := [(.string "A", .string "a")], used := ["A"] }
  let s : Schema := { documents := [e, d, c, b, a].map fun doc => (doc.name, doc) }
  let roots := ["c", "x", "d", "a", "c"]
  have hs : s.IsTyped :=
    ⟨⟨by simp [s], by decide⟩, by simp [s, a, b, c, d, e], by simp [s, a, b, c, d, e]⟩
  have hne : roots ≠ [] := List.cons_ne_nil _ _
  obtain ⟨hroots, hall⟩ := collect_breadth_first hs
  obtain ⟨docs, names, hcollect, -, -, hnames, hfirst⟩ := hroots roots hne
  obtain ⟨all, names', hcollect', hperm, hnames', hascending⟩ := hall .null (Or.inl rfl)
  have hrun : (s.collect (.list (roots.map .string))).toOption.map
      (·.filterMap fun doc => doc.name.text?) = some ["c", "d", "a", "b"] := by decide +kernel
  have htexts : docs.filterMap (fun doc => doc.name.text?) = names := by
    have htexts := congrArg (List.filterMap Json.text?) hnames
    simpa [List.filterMap_map, Function.comp_def, Json.text?] using htexts
  rw [hcollect, Except.toOption, Option.map_some, htexts] at hrun
  cases hrun
  exact ⟨s, roots, docs, hs, rfl, hne, hcollect, hnames, hfirst, all, names', hcollect',
    by simpa [s] using hperm.length_eq, hnames', hascending⟩

end Schema
end SchemaArtifacts
