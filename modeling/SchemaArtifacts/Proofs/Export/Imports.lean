import Mathlib.Data.List.Sort
import Mathlib.Data.String.Basic
import SchemaArtifacts.Proofs.Export.Finding
import SchemaArtifacts.Proofs.Format.Layout
import SchemaArtifacts.Proofs.Model.Alike
import SchemaArtifacts.Proofs.Model.Description

/-!
# Which namespaces a document imports

The aliases in use are marked when a document is read, and the import lines are written from them
later. Both go by the part of a type reference before its first colon, as the text of the body does.
So a document imports exactly the namespaces behind the aliases of its table that it refers to, the
built-in types apart: no reference dangles, and no import is needless.

## Main definitions

* `TypeRef.IsAliasOf` — the part of a type reference before its first colon
* `Declaration.Mentions`, `Document.Refers` — the type references of a declaration, and the aliases
  that a document refers to
* `Document.Imports` — an alias of another namespace that a document refers to
* `Document.IsLine` — what an import line is made of

## Main results

* `Namespace.mem_used_foldl_markRef_iff`, `Document.mem_used_iff` — the aliases in use
* `Namespace.pairwise_foreignImports` — imports come in ascending order of their aliases
* `Json.DescribesSchema.exists_last_part` — of the documents of one name, the last one is kept
* `Exporter.header_lists_imports` — the import lines of a document
-/

namespace SchemaArtifacts

/-! ## Aliases of type references -/

namespace TypeRef

variable {alias_ ref : String}

/-- A type reference has an alias: what stands before its first colon. -/
def IsAliasOf (alias_ ref : String) : Prop :=
  ':' ∉ alias_.toList ∧ ∃ name, ref = alias_ ++ ":" ++ name

theorem isAliasOf_iff : IsAliasOf alias_ ref ↔ (ofString ref).alias_ = some alias_ := by
  constructor
  · rintro ⟨halias, name, rfl⟩
    rw [ofString_append halias]
  · unfold ofString
    split
    · simp
    · rename_i before after hcut
      obtain ⟨hsplit, hbefore⟩ := Text.cut?_eq_some_iff.1 hcut
      rintro heq
      obtain rfl : String.ofList before = alias_ := Option.some.inj heq
      refine ⟨by simpa using hbefore, String.ofList after, String.toList_injective ?_⟩
      simp [hsplit]

end TypeRef

/-! ## Aliases in use -/

namespace Namespace

variable {n : Namespace} {alias_ : String} {full : Json}

theorem mem_used_foldl_markRef_iff {refs : List String} {n : Namespace} :
    alias_ ∈ (refs.foldl markRef n).used ↔ alias_ ∈ n.used ∨
      (∃ ref ∈ refs, TypeRef.IsAliasOf alias_ ref) ∧ (n.fullName? alias_).isSome := by
  induction refs generalizing n with
  | nil => simp
  | cons ref refs ih =>
    have hstep : alias_ ∈ (n.markRef ref).used ↔ alias_ ∈ n.used ∨
        TypeRef.IsAliasOf alias_ ref ∧ (n.fullName? alias_).isSome := by
      rw [TypeRef.isAliasOf_iff, markRef]
      cases (TypeRef.ofString ref).alias_ with
      | none => simp
      | some other =>
        rw [Option.elim_some, mem_used_mark_iff, Option.some.injEq, eq_comm (a := other)]
        exact or_congr_right (and_congr_right fun heq => by rw [heq])
    have htable : (n.markRef ref).fullName? alias_ = n.fullName? alias_ := by
      unfold fullName? markRef
      cases (TypeRef.ofString ref).alias_ with
      | none => rfl
      | some other => rw [Option.elim_some, imports_mark]
    rw [List.foldl_cons, ih, hstep, htable]
    simp only [List.mem_cons, exists_eq_or_imp]
    tauto

theorem nodup_used_foldl_markRef {refs : List String} {n : Namespace} (h : n.used.Nodup) :
    (refs.foldl markRef n).used.Nodup := by
  induction refs generalizing n with
  | nil => exact h
  | cons ref refs ih =>
    refine ih ?_
    unfold markRef
    cases (TypeRef.ofString ref).alias_ with
    | none => exact h
    | some other => exact nodup_used_mark h other

theorem mem_foreignImports_iff : (alias_, full) ∈ n.foreignImports ↔
    alias_ ∈ n.used ∧ alias_ ≠ builtinAlias ∧ n.fullName? alias_ = some full := by
  simp only [foreignImports, usedImports, List.mem_filter, List.mem_filterMap, List.mem_mergeSort,
    Option.map_eq_some_iff, Prod.mk.injEq, bne_iff_ne]
  constructor
  · rintro ⟨⟨_, hused, _, hfull, rfl, rfl⟩, hforeign⟩
    exact ⟨hused, hforeign, hfull⟩
  · rintro ⟨hused, hforeign, hfull⟩
    exact ⟨⟨_, hused, _, hfull, rfl, rfl⟩, hforeign⟩

/-- No alias is marked twice, so the aliases of the imports ascend strictly. -/
theorem pairwise_foreignImports (h : n.used.Nodup) :
    (n.foreignImports.map Prod.fst).Pairwise (· < ·) := by
  have hascending : (n.used.mergeSort fun a b => a ≤ b).Pairwise (· < ·) := by
    have hnodup : (n.used.mergeSort fun a b => a ≤ b).Nodup :=
      (List.mergeSort_perm _ _).nodup_iff.2 h
    refine ((pairwise_mergeSort_le n.used).and hnodup).imp ?_
    rintro a b ⟨hle, hne⟩
    exact String.not_le.1 fun hge => hne (String.le_antisymm hle hge)
  rw [foreignImports, usedImports, List.pairwise_map]
  refine List.Pairwise.filter _ (List.Pairwise.filterMap _ ?_ hascending)
  intro a b hlt x hx y hy
  obtain ⟨_, -, rfl⟩ := Option.map_eq_some_iff.1 hx
  obtain ⟨_, -, rfl⟩ := Option.map_eq_some_iff.1 hy
  exact hlt

end Namespace

/-! ## References of a document -/

/-- The type references of a declaration: its base, unless that is empty, and the types of its
members. -/
def Declaration.Mentions (d : Declaration) (ref : String) : Prop :=
  (d.base = .string ref ∧ ref ≠ "") ∨ ∃ m ∈ d.members, m.typeRef = ref

theorem Declaration.baseRef?_eq_some_iff {d : Declaration} {ref : String} :
    d.baseRef? = some ref ↔ d.base = .string ref ∧ ref ≠ "" := by
  unfold baseRef?
  split
  · rename_i text hbase
    rw [hbase, Json.string.injEq]
    split
    · rename_i hempty
      rw [String.isEmpty_iff] at hempty
      simp [hempty]
    · rename_i hempty
      rw [String.isEmpty_iff] at hempty
      rw [Option.some.injEq]
      exact ⟨fun h => ⟨h, h ▸ hempty⟩, And.left⟩
  · rename_i hother
    exact iff_of_false (by simp) fun h => hother ref h.1

theorem Declaration.mem_typeRefs_iff {d : Declaration} {ref : String} :
    ref ∈ d.typeRefs ↔ d.Mentions ref := by
  simp [typeRefs, Mentions, Option.mem_toList, baseRef?_eq_some_iff]

/-- Each type reference of a declaration stands in one of its lines. -/
theorem Declaration.Mentions.exists_line {d : Declaration} {ref : String} (h : d.Mentions ref) :
    ∃ line ∈ TypeScript.declarationLines d,
      (TypeScript.typeText ref).toList <:+: line.toList := by
  unfold TypeScript.declarationLines
  obtain hbase | ⟨m, hm, rfl⟩ := h
  · have hhead : ∀ last : String,
        (TypeScript.typeText ref).toList <:+: (TypeScript.head d ++ last).toList := by
      intro last
      rw [TypeScript.head_of_baseRef? (baseRef?_eq_some_iff.2 hbase)]
      refine ⟨("export interface " ++ d.name.display ++ " extends ").toList, last.toList, ?_⟩
      simp only [String.toList_append, List.append_assoc]
    split
    · exact ⟨_, List.mem_singleton_self _, hhead _⟩
    · exact ⟨_, List.mem_append_left _ List.mem_cons_self, hhead _⟩
  · have hsome : d.members.isEmpty = false := List.isEmpty_eq_false_iff.2 (List.ne_nil_of_mem hm)
    rw [hsome]
    refine ⟨TypeScript.memberLine m, ?_,
      ("\t" ++ m.name.display ++ (if m.optional.isTruthy then "?" else "") ++ ": ").toList,
      ((if m.array.isTruthy then "[]" else "") ++ ";").toList, ?_⟩
    · exact List.mem_append_left _ (List.mem_cons_of_mem _ (List.mem_map_of_mem hm))
    · simp only [TypeScript.memberLine, String.toList_append, List.append_assoc]

/-- A type reference with an alias, not that of the built-in types, stands there with a dot. -/
theorem Declaration.Mentions.exists_qualified {d : Declaration} {alias_ name : String}
    (h : d.Mentions (alias_ ++ ":" ++ name)) (halias : ':' ∉ alias_.toList)
    (hforeign : alias_ ≠ "Primitive") :
    ∃ line ∈ TypeScript.declarationLines d, (alias_ ++ "." ++ name).toList <:+: line.toList := by
  obtain ⟨line, hline, hinfix⟩ := h.exists_line
  rw [TypeScript.typeText_append halias hforeign] at hinfix
  exact ⟨line, hline, hinfix⟩

namespace Document

variable {d : Document} {alias_ full : String}

/-- A document refers to an alias if one of its type references has it. -/
def Refers (d : Document) (alias_ : String) : Prop :=
  ∃ decl ∈ d.declarations, ∃ ref, decl.Mentions ref ∧ TypeRef.IsAliasOf alias_ ref

/-- A document imports a namespace if its table has an alias for it, not that of the built-in types,
that the document refers to. -/
structure Imports (d : Document) (alias_ full : String) : Prop where
  entry : (.string alias_, .string full) ∈ d.imports
  foreign : alias_ ≠ "Primitive"
  refers : d.Refers alias_

/-- Under a text, a table of texts has what stands there. -/
theorem IsTyped.fullName?_eq_some_iff (h : d.IsTyped) {value : Json} :
    d.fullName? alias_ = some value ↔ (.string alias_, value) ∈ d.imports := by
  obtain ⟨fields, himports, htexts⟩ := h.imports
  rw [Namespace.fullName?, himports]
  constructor
  · intro hfound
    obtain ⟨key, hentry, hsame⟩ := Json.exists_of_find? hfound
    obtain ⟨field, hfield, heq⟩ := List.mem_map.1 hentry
    cases heq
    obtain rfl : field.1 = alias_ := by simpa using hsame
    exact hentry
  · intro hentry
    obtain ⟨field, hfield, heq⟩ := List.mem_map.1 hentry
    cases heq
    have hnodup := htexts.nodup
    clear himports htexts hentry
    induction fields with
    | nil => cases hfield
    | cons first fields ih =>
      rw [List.map_cons, List.nodup_cons] at hnodup
      rw [List.map_cons, Json.find?]
      obtain rfl | hrest := List.mem_cons.1 hfield
      · exact if_pos (by simp)
      · have hne : first.1 ≠ field.1 := fun heq =>
          hnodup.1 (heq ▸ List.mem_map_of_mem hrest)
        rw [if_neg (by simpa using hne)]
        exact ih hrest hnodup.2

/-- The aliases in use of a document that was read are those of its table that it refers to. -/
theorem mem_used_iff (h : d =
    markAll { name := d.name, imports := d.imports, declarations := d.declarations }) :
    alias_ ∈ d.used ↔ d.Refers alias_ ∧ (d.fullName? alias_).isSome := by
  have hused : d.used = ((d.declarations.flatMap Declaration.typeRefs).foldl Namespace.markRef
      { name := d.name, imports := d.imports }).used := congrArg (fun d => d.used) h
  rw [hused, Namespace.mem_used_foldl_markRef_iff]
  simp only [List.not_mem_nil, false_or, List.mem_flatMap, Declaration.mem_typeRefs_iff]
  refine and_congr_left' ⟨?_, ?_⟩
  · rintro ⟨ref, ⟨decl, hdecl, hmentions⟩, halias⟩
    exact ⟨decl, hdecl, ref, hmentions, halias⟩
  · rintro ⟨decl, hdecl, ref, hmentions, halias⟩
    exact ⟨ref, ⟨decl, hdecl, hmentions⟩, halias⟩

theorem nodup_used (h : d =
    markAll { name := d.name, imports := d.imports, declarations := d.declarations }) :
    d.used.Nodup := by
  rw [h]
  exact Namespace.nodup_used_foldl_markRef List.nodup_nil

/-- The imports that lead to another document are those that it imports. -/
theorem IsTyped.mem_foreignImports_iff (htyped : d.IsTyped) (h : d =
    markAll { name := d.name, imports := d.imports, declarations := d.declarations }) :
    (alias_, .string full) ∈ d.foreignImports ↔ d.Imports alias_ full := by
  rw [Namespace.mem_foreignImports_iff, mem_used_iff h, htyped.fullName?_eq_some_iff]
  constructor
  · rintro ⟨⟨hrefers, -⟩, hforeign, hentry⟩
    exact ⟨hentry, hforeign, hrefers⟩
  · rintro ⟨hentry, hforeign, hrefers⟩
    have hfound := htyped.fullName?_eq_some_iff.2 hentry
    exact ⟨⟨hrefers, by rw [hfound]; rfl⟩, hforeign, hentry⟩

theorem IsTyped.mem_aliases_iff (htyped : d.IsTyped) (h : d =
    markAll { name := d.name, imports := d.imports, declarations := d.declarations }) :
    alias_ ∈ d.foreignImports.map Prod.fst ↔ (∃ full, (.string alias_, full) ∈ d.imports) ∧
      alias_ ≠ "Primitive" ∧ d.Refers alias_ := by
  constructor
  · intro hmem
    obtain ⟨⟨_, full⟩, hentry, rfl⟩ := List.mem_map.1 hmem
    obtain ⟨hused, hforeign, hfull⟩ := Namespace.mem_foreignImports_iff.1 hentry
    exact ⟨⟨full, htyped.fullName?_eq_some_iff.1 hfull⟩, hforeign, ((mem_used_iff h).1 hused).1⟩
  · rintro ⟨⟨full, hentry⟩, hforeign, hrefers⟩
    have hfull := htyped.fullName?_eq_some_iff.2 hentry
    have hused := (mem_used_iff h).2 ⟨hrefers, by rw [hfull]; rfl⟩
    exact List.mem_map_of_mem (f := Prod.fst)
      (Namespace.mem_foreignImports_iff.2 ⟨hused, hforeign, hfull⟩)

/-! ## Import lines -/

/-- What an import line is made of: the alias of an import, its name and the way to it. -/
structure IsLine (place : Json → Except Failure String) (d : Document) (entry : String × Json)
    (line : String × String × String) : Prop where
  entry : entry = (line.1, .string line.2.1)
  way : d.specifierBy place (.string line.2.1) = .ok line.2.2

section Lines

variable {place : Json → Except Failure String} {format : Format}
  {lines : List (String × String × String)}

/-- If the names behind its imports have paths, and its own name if there are any, a document has a line
for each. -/
theorem IsTyped.exists_lines (htyped : d.IsTyped) (h : d =
    markAll { name := d.name, imports := d.imports, declarations := d.declarations })
    (htargets : ∀ alias_ full, d.Imports alias_ full → ∃ path, place (.string full) = .ok path)
    (hown : ∀ alias_ full, d.Imports alias_ full → ∃ path, place d.name = .ok path) :
    ∃ lines, List.Forall₂ (IsLine place d) d.foreignImports lines := by
  have hfound : ∀ entry ∈ d.foreignImports, ∃ line, IsLine place d entry line := by
    rintro ⟨alias_, value⟩ hentry
    obtain ⟨full, rfl⟩ : ∃ full, value = .string full := by
      obtain ⟨-, -, hvalue⟩ := Namespace.mem_foreignImports_iff.1 hentry
      obtain ⟨fields, hfields, htexts⟩ := htyped.imports
      have hmem := htyped.fullName?_eq_some_iff.1 hvalue
      rw [hfields] at hmem
      obtain ⟨field, hfield, heq⟩ := List.mem_map.1 hmem
      cases heq
      exact htexts.texts field hfield
    have himport := (htyped.mem_foreignImports_iff h).1 hentry
    obtain ⟨target, htarget⟩ := htargets alias_ full himport
    obtain ⟨own, hhome⟩ := hown alias_ full himport
    refine ⟨(alias_, full, String.ofList (Path.moduleSpecifier target.toList
      (String.ofList (Path.dirname own.toList)).toList)), rfl, ?_⟩
    rw [specifierBy, htarget, homeBy, hhome]
    rfl
  choose! line hline using hfound
  exact ⟨_, List.forall₂_map_right_iff.2 (List.forall₂_same.2 hline)⟩

theorem headerBy_of_lines (h : List.Forall₂ (IsLine place d) d.foreignImports lines) :
    d.headerBy place format = .ok (lines.map fun (alias_, full, path) =>
      format.importLine alias_ path (.string full)) := by
  rw [headerBy, mapM_eq_ok_iff, List.forall₂_map_right_iff]
  refine h.imp fun entry line hline => ?_
  obtain ⟨rfl, hway⟩ := hline
  simp only [hway]
  rfl

theorem map_fst_of_lines (h : List.Forall₂ (IsLine place d) d.foreignImports lines) :
    lines.map Prod.fst = d.foreignImports.map Prod.fst := by
  rw [eq_comm, ← List.forall₂_eq_eq_eq, List.forall₂_map_left_iff, List.forall₂_map_right_iff]
  exact h.imp fun entry line hline => congrArg Prod.fst hline.entry

end Lines

end Document

/-- A document of a schema comes of the last part of the description that has its name. -/
theorem Json.DescribesSchema.exists_last_part {data key : Json} {s : Schema} {d : Document}
    (h : data.DescribesSchema) (hs : Schema.ofJson data = .ok s) (hd : (key, d) ∈ s.documents) :
    ∃ before part after,
      data.fieldOr "namespaces" (.list []) = .ok (.list (before ++ part :: after)) ∧
        Document.ofJson part = .ok d ∧ ∀ later ∈ after, later.lookup "name" ≠ .ok d.name := by
  obtain ⟨parts, docs, hparts, hdocs, htyped, hschema⟩ := h.exists_schema
  obtain rfl := Except.ok.inj (hs.symm.trans hschema)
  obtain ⟨before, after, rfl, hlater⟩ :=
    Schema.exists_last_of_mem (fun d hd => (htyped d hd).name) hd
  obtain ⟨part, after', hpart, hafter, hdrop⟩ :=
    List.forall₂_cons_right_iff.1 (List.forall₂_drop_append _ _ _ hdocs)
  rw [← List.take_append_drop before.length parts, hdrop] at hparts
  refine ⟨_, part, after', hparts, hpart, fun later hmem hname => ?_⟩
  obtain ⟨d', hd', hread⟩ := exists_of_mem_forall₂ hafter.flip hmem
  obtain ⟨name, _, _, _, hlookup, -, -, -, rfl⟩ := Document.ofJson_eq_ok_iff.1 hread
  refine hlater _ hd' ?_
  rw [Document.name_markAll]
  exact Except.ok.inj (hlookup.symm.trans hname)

namespace Exporter

open TypeScript

variable {σ : Type} {shelf : Shelf σ} {fits : σ → Prop} {place : Json → Except Failure String}
  {data key : Json} {s : Schema} {d : Document} {e : Exporter} {state : σ}

/-- A document of a well-typed description, the last one of its name, has one import line for each
alias of its table that it refers to, that of the built-in types apart, in ascending order, if the
names behind these aliases have paths, and its own name if there are any. So each type that is written
with an alias of the table is imported, and each imported alias is written somewhere. -/
theorem header_lists_imports (hdata : data.DescribesSchema) (hs : Schema.ofJson data = .ok s)
    (hd : (key, d) ∈ s.documents) (hshelf : shelf.IsSteady fits place) (hstate : fits state)
    (he : e.Knows place d)
    (htargets : ∀ alias_ full, d.Imports alias_ full → ∃ path, place (.string full) = .ok path)
    (hown : ∀ alias_ full, d.Imports alias_ full → ∃ path, place d.name = .ok path) :
    (∃ before part after,
      data.fieldOr "namespaces" (.list []) = .ok (.list (before ++ part :: after)) ∧
        Document.ofJson part = .ok d ∧ ∀ later ∈ after, later.lookup "name" ≠ .ok d.name) ∧
    ∃ lines : List (String × String × String),
      ((header shelf).run (state, e)).1 = .ok (lines.map fun (alias_, full, path) =>
        e.format.importLine alias_ path (.string full)) ∧
      (lines.map Prod.fst).Pairwise (· < ·) ∧
      (∀ alias_, alias_ ∈ lines.map Prod.fst ↔ (∃ full, (.string alias_, full) ∈ d.imports) ∧
        alias_ ≠ "Primitive" ∧ d.Refers alias_) ∧
      (∀ alias_ full path, (alias_, full, path) ∈ lines →
        (.string alias_, .string full) ∈ d.imports ∧
          ((pathTo shelf (.string full)).run (state, e)).1 = .ok path) ∧
      (∀ decl ∈ d.declarations, ∀ alias_ name, ':' ∉ alias_.toList →
        decl.Mentions (alias_ ++ ":" ++ name) → alias_ ≠ "Primitive" →
          (∃ line ∈ declarationLines decl, (alias_ ++ "." ++ name).toList <:+: line.toList) ∧
            ((∃ full, (.string alias_, full) ∈ d.imports) → alias_ ∈ lines.map Prod.fst)) ∧
      ∀ alias_ ∈ lines.map Prod.fst, ∃ decl ∈ d.declarations, ∃ name,
        ∃ line ∈ declarationLines decl, (alias_ ++ "." ++ name).toList <:+: line.toList := by
  obtain ⟨before, part, after, hparts, hpart, hlater⟩ := hdata.exists_last_part hs hd
  have htyped : d.IsTyped := (hdata.isTyped hs).2 _ hd
  have hmarked := Document.eq_markAll_of_ofJson hpart
  obtain ⟨lines, hlines⟩ := htyped.exists_lines hmarked htargets hown
  have haliases := Document.map_fst_of_lines hlines
  have hmem : ∀ alias_, alias_ ∈ lines.map Prod.fst ↔
      (∃ full, (.string alias_, full) ∈ d.imports) ∧ alias_ ≠ "Primitive" ∧ d.Refers alias_ := by
    intro alias_
    rw [haliases]
    exact htyped.mem_aliases_iff hmarked
  refine ⟨⟨before, part, after, hparts, hpart, hlater⟩, lines, ?_, ?_, hmem, ?_, ?_, ?_⟩
  · obtain ⟨state', e', hrun, -⟩ := run_header_steady hshelf hstate he
    rw [hrun, Document.headerBy_of_lines hlines]
  · rw [haliases]
    exact Namespace.pairwise_foreignImports (Document.nodup_used hmarked)
  · intro alias_ full path hline
    obtain ⟨_, hentry, rfl, hway⟩ := exists_of_mem_forall₂ hlines hline
    obtain ⟨state', e', hrun, -⟩ := settles_pathTo hshelf (.string full) state e hstate he
    exact ⟨((htyped.mem_foreignImports_iff hmarked).1 hentry).entry, by rw [hrun, hway]⟩
  · intro decl hdecl alias_ name halias hmentions hforeign
    refine ⟨hmentions.exists_qualified halias hforeign, fun hentry => (hmem alias_).2 ?_⟩
    exact ⟨hentry, hforeign, decl, hdecl, _, hmentions, halias, name, rfl⟩
  · intro alias_ himport
    obtain ⟨-, hforeign, decl, hdecl, _, hmentions, halias, name, rfl⟩ := (hmem alias_).1 himport
    exact ⟨decl, hdecl, name, hmentions.exists_qualified halias hforeign⟩

/-- Of two namespaces of one name the second is kept. Its table has four aliases, of which it refers to
three, and one of these is that of the built-in types. -/
theorem header_lists_imports_of_last : ∃ (data : Json) (s : Schema) (d : Document)
    (lines : List (String × String × String)), data.DescribesSchema ∧ Schema.ofJson data = .ok s ∧
      s.named? "x" = some d ∧ d.imports.length = 4 ∧ lines.map Prod.fst = ["A", "B"] ∧
      ((header Cache.shelf).run ({ root := .top }, { doc := some d, format := .typeScript })).1 =
        .ok (lines.map fun (alias_, full, path) =>
          Format.typeScript.importLine alias_ path (.string full)) := by
  let imports : List (String × Json) :=
    [("B", .string "b"), ("C", .string "c"), ("A", .string "a"), ("Primitive", .string "p")]
  let members : List Json :=
    [.object [("name", .string "m"), ("type", .string "Primitive:string")],
      .object [("name", .string "n"), ("type", .string "A:V")]]
  let first : Json := .object [("name", .string "x")]
  let last : Json := .object [("name", .string "x"), ("imports", .object imports),
    ("declarations", .list [.object [("name", .string "T"), ("base", .string "B:U:C"),
      ("members", .list members)]])]
  let data : Json := .object [("namespaces", .list [first, last])]
  have hdata : data.DescribesSchema := by
    have hfirst : first.DescribesNamespace :=
      ⟨⟨"x", rfl⟩, ⟨[], rfl, by simp, by simp⟩, ⟨[], rfl, by simp⟩⟩
    have hlast : last.DescribesNamespace := by
      refine ⟨⟨"x", rfl⟩, ⟨imports, rfl, by decide, by simp [imports]⟩, ⟨_, rfl, ?_⟩⟩
      simp only [List.forall_mem_singleton]
      refine ⟨⟨"T", rfl⟩, Or.inr ⟨"B:U:C", rfl⟩, ⟨members, rfl, ?_⟩⟩
      simp only [members, List.forall_mem_cons, List.not_mem_nil, false_imp_iff, implies_true,
        and_true]
      exact ⟨⟨⟨"m", rfl⟩, ⟨_, rfl⟩, ⟨false, rfl⟩, ⟨false, rfl⟩⟩,
        ⟨⟨"n", rfl⟩, ⟨_, rfl⟩, ⟨false, rfl⟩, ⟨false, rfl⟩⟩⟩
    exact ⟨_, rfl, by simp [hfirst, hlast]⟩
  have hread : ((Schema.ofJson data).toOption.bind (·.named? "x")).map (fun d =>
      ((d.name :: d.imports.map Prod.snd).all fun name =>
        (placeBelow .top name).toOption.isSome, d.imports.length, d.used)) =
        some (true, 4, ["B", "Primitive", "A"]) := by
    decide +kernel
  obtain ⟨d, hfound, hcheck⟩ := Option.map_eq_some_iff.1 hread
  obtain ⟨s, hs, hd⟩ := Option.bind_eq_some_iff.1 hfound
  have hs := Act.eq_ok_of_toOption hs
  simp only [Prod.mk.injEq] at hcheck
  obtain ⟨hall, hlength, hused⟩ := hcheck
  have hplaced : ∀ name ∈ d.name :: d.imports.map Prod.snd,
      ∃ path, placeBelow .top name = .ok path := by
    intro name hname
    obtain ⟨path, hpath⟩ := Option.isSome_iff_exists.1 (List.all_eq_true.1 hall name hname)
    exact ⟨path, Act.eq_ok_of_toOption hpath⟩
  let c : Cache := { root := .top }
  let e : Exporter := { doc := some d, format := .typeScript }
  obtain ⟨key, hmember, -⟩ := Json.exists_of_find? hd
  obtain ⟨⟨_, part, _, -, hpart, -⟩, lines, hlines, hascending, hmem, -⟩ :=
    header_lists_imports hdata hs hmember (isSteady_shelf c) rfl (knows_of_fresh (e := e) rfl rfl)
      (fun _ _ h =>
        hplaced _ (List.mem_cons_of_mem _ (List.mem_map_of_mem (f := Prod.snd) h.entry)))
      fun _ _ _ => hplaced _ List.mem_cons_self
  have hmarked := Document.eq_markAll_of_ofJson hpart
  have htyped : d.IsTyped := (hdata.isTyped hs).2 _ hmember
  refine ⟨data, s, d, lines, hdata, hs, hd, hlength, ?_, hlines⟩
  refine hascending.eq_of_mem_iff (by decide +kernel) fun alias_ => ?_
  have husing : alias_ ∈ d.used ↔ _ := Document.mem_used_iff hmarked
  rw [hused, Option.isSome_iff_exists] at husing
  simp only [htyped.fullName?_eq_some_iff, List.mem_cons, List.not_mem_nil, or_false] at husing
  rw [hmem]
  simp only [List.mem_cons, List.not_mem_nil, or_false]
  constructor
  · rintro ⟨hentry, hforeign, hrefers⟩
    obtain rfl | rfl | rfl := husing.2 ⟨hrefers, hentry⟩
    · exact .inr rfl
    · exact absurd rfl hforeign
    · exact .inl rfl
  · intro heither
    obtain ⟨hrefers, hentry⟩ := husing.1 (heither.elim (fun h => .inr (.inr h)) .inl)
    exact ⟨hentry, by rintro rfl; exact absurd heither (by decide), hrefers⟩

/-- A document with the empty name has no directory to write a path from. It has no import lines if it
refers to another namespace, whatever path that one has. -/
theorem not_header_lists_imports_of_unnamed : ¬ ∀ (data key : Json) (s : Schema) (d : Document)
    (c : Cache) (e : Exporter), data.DescribesSchema → Schema.ofJson data = .ok s →
    (key, d) ∈ s.documents → e.StandsFor c.root d →
    (∀ alias_ full, d.Imports alias_ full → ∃ path, placeBelow c.root (.string full) = .ok path) →
    ∃ lines, ((header Cache.shelf).run (c, e)).1 = .ok lines := by
  intro h
  let imports : List (String × Json) := [("b", .string "b")]
  let part : Json := .object [("name", .string ""), ("imports", .object imports),
    ("declarations", .list [.object [("name", .string "X"), ("base", .string "b:Y")]])]
  let data : Json := .object [("namespaces", .list [part])]
  have hdata : data.DescribesSchema := by
    have hpart : part.DescribesNamespace := by
      refine ⟨⟨"", rfl⟩, ⟨imports, rfl, by decide, by simp [imports]⟩, ⟨_, rfl, ?_⟩⟩
      simp only [List.forall_mem_singleton]
      exact ⟨⟨"X", rfl⟩, Or.inr ⟨"b:Y", rfl⟩, ⟨[], rfl, by simp⟩⟩
    exact ⟨_, rfl, by simp [hpart]⟩
  let c : Cache := { root := .top }
  let e (d : Document) : Exporter := { doc := some d, format := .typeScript }
  have hread : ((Schema.ofJson data).toOption.bind (·.named? "")).map (fun d =>
      ((d.imports.map Prod.snd).all fun name => (placeBelow .top name).toOption.isSome,
        ((header Cache.shelf).run (c, e d)).1.toOption.isSome)) = some (true, false) := by
    decide +kernel
  obtain ⟨d, hfound, hcheck⟩ := Option.map_eq_some_iff.1 hread
  obtain ⟨s, hs, hd⟩ := Option.bind_eq_some_iff.1 hfound
  obtain ⟨key, hmember, -⟩ := Json.exists_of_find? hd
  simp only [Prod.mk.injEq] at hcheck
  obtain ⟨hall, hnone⟩ := hcheck
  obtain ⟨lines, hlines⟩ := h data key s d c (e d) hdata (Act.eq_ok_of_toOption hs) hmember
    ⟨rfl, fun _ hdir => by cases hdir⟩ fun alias_ full himport => by
      obtain ⟨path, hpath⟩ := Option.isSome_iff_exists.1
        (List.all_eq_true.1 hall _ (List.mem_map_of_mem (f := Prod.snd) himport.entry))
      exact ⟨path, Act.eq_ok_of_toOption hpath⟩
  rw [hlines] at hnone
  cases hnone

end Exporter
end SchemaArtifacts
