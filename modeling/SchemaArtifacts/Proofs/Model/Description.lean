import Mathlib.Data.List.Forall2
import Mathlib.Data.List.Induction
import SchemaArtifacts.Proofs.Model.Collect

/-!
# Schemas from well-typed descriptions

A description is well typed if its names and types are texts, its flags are flags, and each
namespace has a table of imports from text to text. What may be left out may be missing. From such a
description there is a schema, and its documents are as well typed.

## Main definitions

* `Json.DescribesMember`, `Json.DescribesDeclaration`, `Json.DescribesNamespace`,
  `Json.DescribesSchema` — well-typed descriptions
* `Member.IsTyped`, `Declaration.IsTyped`, `Document.IsTyped` — what comes of them

## Main results

* `Document.ofJson_eq_ok_iff` — what a document is read from
* `Document.eq_markAll_of_ofJson` — the aliases in use are those that the declarations refer to
* `Json.DescribesNamespace.exists_document`, `Json.DescribesSchema.exists_schema` — well-typed
  descriptions are read
* `Json.DescribesSchema.exists_part` — each document of a schema comes of a part of its description
* `Json.DescribesSchema.isTyped` — the documents and the schema are typed
-/

namespace SchemaArtifacts

/-! ## Descriptions -/

namespace Json

/-- A member has texts for its name and its type, and flags. -/
structure DescribesMember (a : Json) : Prop where
  name : ∃ text, a.lookup "name" = .ok (.string text)
  typeRef : ∃ text, a.lookup "type" = .ok (.string text)
  optional : ∃ flag, a.fieldOr "optional" (.bool false) = .ok (.bool flag)
  array : ∃ flag, a.fieldOr "array" (.bool false) = .ok (.bool flag)

/-- A declaration has a text for its name, none or a text for its base, and members. -/
structure DescribesDeclaration (a : Json) : Prop where
  name : ∃ text, a.lookup "name" = .ok (.string text)
  base : a.fieldOr "base" .null = .ok .null ∨ ∃ text, a.fieldOr "base" .null = .ok (.string text)
  members : ∃ members, a.fieldOr "members" (.list []) = .ok (.list members) ∧
    ∀ member ∈ members, member.DescribesMember

/-- The names of some fields differ, and their values are texts. -/
structure AreTexts (fields : List (String × Json)) : Prop where
  nodup : (fields.map Prod.fst).Nodup
  texts : ∀ field ∈ fields, ∃ text, field.2 = .string text

/-- A namespace has a text for its name, a table of texts for its imports, and declarations. -/
structure DescribesNamespace (a : Json) : Prop where
  name : ∃ text, a.lookup "name" = .ok (.string text)
  imports : ∃ fields, a.fieldOr "imports" (.object []) = .ok (.object fields) ∧ AreTexts fields
  declarations : ∃ declarations,
    a.fieldOr "declarations" (.list []) = .ok (.list declarations) ∧
      ∀ declaration ∈ declarations, declaration.DescribesDeclaration

/-- A schema has namespaces. -/
def DescribesSchema (a : Json) : Prop :=
  ∃ parts, a.fieldOr "namespaces" (.list []) = .ok (.list parts) ∧
    ∀ part ∈ parts, part.DescribesNamespace

end Json

/-! ## Typed documents -/

/-- The name of a member is a text, and its flags are flags. -/
structure Member.IsTyped (m : Member) : Prop where
  name : ∃ text, m.name = .string text
  optional : ∃ flag, m.optional = .bool flag
  array : ∃ flag, m.array = .bool flag

/-- The name of a declaration is a text, and its base is none or a text. -/
structure Declaration.IsTyped (d : Declaration) : Prop where
  name : ∃ text, d.name = .string text
  base : d.base = .null ∨ ∃ text, d.base = .string text
  members : ∀ m ∈ d.members, m.IsTyped

/-- The name of a document is a text, and so are its imports. -/
structure Document.IsTyped (d : Document) : Prop where
  name : ∃ text, d.name = .string text
  imports : ∃ fields, d.imports = fields.map (fun field => (.string field.1, field.2)) ∧
    Json.AreTexts fields
  declarations : ∀ declaration ∈ d.declarations, declaration.IsTyped

/-! ## Traversals -/

/-- A traversal has the results of its steps. -/
theorem mapM_eq_ok_iff {α β ε : Type} {f : α → Except ε β} {as : List α} {bs : List β} :
    as.mapM f = .ok bs ↔ List.Forall₂ (fun a b => f a = .ok b) as bs := by
  induction as generalizing bs with
  | nil => cases bs <;> simp [pure, Except.pure]
  | cons a as ih =>
    rw [List.mapM_cons, List.forall₂_cons_left_iff]
    simp only [Result.bind_eq_ok, ih, pure, Except.pure, Except.ok.injEq]
    constructor
    · rintro ⟨b, hb, bs, hbs, rfl⟩
      exact ⟨b, bs, hb, hbs, rfl⟩
    · rintro ⟨b, bs, hb, hbs, rfl⟩
      exact ⟨b, hb, bs, hbs, rfl⟩

/-- Where each step of a traversal has a result, the traversal has them all. -/
theorem exists_mapM_eq_ok {α β ε : Type} {f : α → Except ε β} {fits : β → Prop} {as : List α}
    (h : ∀ a ∈ as, ∃ b, f a = .ok b ∧ fits b) :
    ∃ bs, as.mapM f = .ok bs ∧ ∀ b ∈ bs, fits b := by
  induction as with
  | nil => exact ⟨[], rfl, by simp⟩
  | cons a as ih =>
    obtain ⟨⟨b, hb, hfits⟩, hrest⟩ := List.forall_mem_cons.1 h
    obtain ⟨bs, hbs, hall⟩ := ih hrest
    refine ⟨b :: bs, ?_, List.forall_mem_cons.2 ⟨hfits, hall⟩⟩
    rw [List.mapM_cons, hb, hbs]
    rfl

/-- Of two lists that are related item by item, the second has items for those of the first only. -/
theorem exists_of_mem_forall₂ {α β : Type} {rel : α → β → Prop} {as : List α} {bs : List β}
    (h : List.Forall₂ rel as bs) {b : β} (hb : b ∈ bs) : ∃ a ∈ as, rel a b := by
  induction h with
  | nil => cases hb
  | cons hpair _ ih =>
    obtain rfl | hb := List.mem_cons.1 hb
    · exact ⟨_, List.mem_cons_self, hpair⟩
    · obtain ⟨a, ha, hrel⟩ := ih hb
      exact ⟨a, List.mem_cons_of_mem _ ha, hrel⟩

/-! ## Reading -/

namespace Json

theorem DescribesMember.exists_member {a : Json} (h : a.DescribesMember) :
    ∃ raw, RawMember.ofJson a = .ok raw ∧ ∃ m, raw.check = .ok m ∧ m.IsTyped := by
  obtain ⟨name, hname⟩ := h.name
  obtain ⟨typeRef, htype⟩ := h.typeRef
  obtain ⟨optional, hoptional⟩ := h.optional
  obtain ⟨array, harray⟩ := h.array
  refine ⟨_, by rw [RawMember.ofJson, hname, htype, hoptional, harray]; rfl, _, rfl, ?_⟩
  exact ⟨⟨name, rfl⟩, ⟨optional, rfl⟩, ⟨array, rfl⟩⟩

theorem DescribesDeclaration.exists_declaration {a : Json} (h : a.DescribesDeclaration) :
    ∃ raw, RawDeclaration.ofJson a = .ok raw ∧ ∃ d, raw.check = .ok d ∧ d.IsTyped := by
  obtain ⟨name, hname⟩ := h.name
  obtain ⟨members, hmembers, hall⟩ := h.members
  obtain ⟨base, hbase, htyped⟩ : ∃ base, a.fieldOr "base" .null = .ok base ∧
      (base = .null ∨ ∃ text, base = .string text) := by
    obtain hnull | ⟨text, htext⟩ := h.base
    · exact ⟨.null, hnull, Or.inl rfl⟩
    · exact ⟨.string text, htext, Or.inr ⟨text, rfl⟩⟩
  obtain ⟨raw, hraw, hchecked⟩ := exists_mapM_eq_ok fun a ha => (hall a ha).exists_member
  obtain ⟨checked, hcheck, hmemberTyped⟩ := exists_mapM_eq_ok hchecked
  have hread : RawDeclaration.ofJson a = .ok ⟨.string name, base, raw⟩ := by
    rw [RawDeclaration.ofJson, hname, hbase, hmembers]
    change (members.mapM RawMember.ofJson >>= _) = _
    rw [hraw]
    rfl
  refine ⟨_, hread, ⟨.string name, base, checked⟩, ?_, ⟨⟨name, rfl⟩, htyped, hmemberTyped⟩⟩
  unfold RawDeclaration.check
  dsimp only
  rw [hcheck]
  obtain rfl | ⟨text, rfl⟩ := htyped
  · rfl
  · split <;> rfl

end Json

namespace Document

variable {a : Json} {d : Document}

/-- What marking an alias does not change, marking all references does not. -/
theorem foldl_markRef {α : Type} {f : Namespace → α}
    (hf : ∀ (n : Namespace) (alias_ : String), f (n.mark alias_) = f n) (refs : List String)
    (n : Namespace) : f (refs.foldl Namespace.markRef n) = f n := by
  induction refs generalizing n with
  | nil => rfl
  | cons ref refs ih =>
    rw [List.foldl_cons, ih, Namespace.markRef]
    cases (TypeRef.ofString ref).alias_ with
    | none => rfl
    | some alias_ => exact hf n alias_

@[simp] theorem name_markAll (d : Document) : d.markAll.name = d.name :=
  foldl_markRef Namespace.name_mark _ _

@[simp] theorem imports_markAll (d : Document) : d.markAll.imports = d.imports :=
  foldl_markRef Namespace.imports_mark _ _

/-- The declarations of a document from its description. -/
def declarationsOf (a : Json) : Except ShapeError (List Declaration) := do
  let raw ← (← (← a.fieldOr "declarations" (.list [])).elements).mapM RawDeclaration.ofJson
  raw.mapM RawDeclaration.check

/-- A document is read from its name, its imports and its declarations alone. -/
theorem ofJson_eq_ok_iff : ofJson a = .ok d ↔ ∃ name value imports declarations,
    a.lookup "name" = .ok name ∧ a.fieldOr "imports" (.object []) = .ok value ∧
      value.pairs = .ok imports ∧ declarationsOf a = .ok declarations ∧
      d = markAll { name := name, imports := imports, declarations := declarations } := by
  simp only [ofJson, declarationsOf, Result.bind_eq_ok, pure, Except.pure, Except.ok.injEq]
  constructor
  · rintro ⟨name, hname, value, hvalue, imports, himports, field, hfield, items, hitems, raw, hraw,
      declarations, hdeclarations, rfl⟩
    exact ⟨name, value, imports, declarations, hname, hvalue, himports,
      ⟨field, hfield, items, hitems, raw, hraw, hdeclarations⟩, rfl⟩
  · rintro ⟨name, value, imports, declarations, hname, hvalue, himports,
      ⟨field, hfield, items, hitems, raw, hraw, hdeclarations⟩, rfl⟩
    exact ⟨name, hname, value, hvalue, imports, himports, field, hfield, items, hitems, raw, hraw,
      declarations, hdeclarations, rfl⟩

/-- A document that was read has nothing but its name, its imports and its declarations: the aliases
in use follow from them. -/
theorem eq_markAll_of_ofJson (h : ofJson a = .ok d) :
    d = markAll { name := d.name, imports := d.imports, declarations := d.declarations } := by
  obtain ⟨name, value, imports, declarations, -, -, -, -, rfl⟩ := ofJson_eq_ok_iff.1 h
  rw [name_markAll, imports_markAll, declarations_markAll]

end Document

/-- The document of a well-typed description. -/
theorem Json.DescribesNamespace.exists_document {a : Json} (h : a.DescribesNamespace) :
    ∃ d, Document.ofJson a = .ok d ∧ d.IsTyped := by
  obtain ⟨name, hname⟩ := h.name
  obtain ⟨fields, himports, htexts⟩ := h.imports
  obtain ⟨items, hitems, hall⟩ := h.declarations
  obtain ⟨raw, hraw, hchecked⟩ := exists_mapM_eq_ok fun a ha => (hall a ha).exists_declaration
  obtain ⟨declarations, hcheck, htyped⟩ := exists_mapM_eq_ok hchecked
  have hdeclarations : Document.declarationsOf a = .ok declarations := by
    rw [Document.declarationsOf, hitems]
    change (items.mapM RawDeclaration.ofJson >>= fun raw => raw.mapM RawDeclaration.check) = _
    rw [hraw]
    exact hcheck
  refine ⟨_, Document.ofJson_eq_ok_iff.2
    ⟨_, _, _, _, hname, himports, rfl, hdeclarations, rfl⟩, ⟨name, by simp⟩,
    ⟨fields, ?_, htexts⟩, ?_⟩
  · rw [Document.imports_markAll]
  · rw [Document.declarations_markAll]
    exact htyped

namespace Schema

variable {a : Json} {s : Schema} {docs : List Document} {parts : List Json}

/-- The schema of some documents that are added one after the other. -/
def ofDocuments (docs : List Document) : Schema :=
  { documents := docs.foldl (fun table d => Json.insert d.name d table) [] }

theorem mem_of_mem_documents_ofDocuments {entry : Json × Document}
    (h : entry ∈ (ofDocuments docs).documents) : entry.2 ∈ docs := by
  have hall : ∀ (docs : List Document) (table : List (Json × Document)),
      entry ∈ docs.foldl (fun table d => Json.insert d.name d table) table →
        entry ∈ table ∨ entry.2 ∈ docs := by
    intro docs
    induction docs with
    | nil => exact fun _ h => Or.inl h
    | cons d docs ih =>
      intro table h
      obtain hmem | hmem := ih _ h
      · obtain hold | ⟨rfl, -⟩ := Json.mem_insert hmem
        · exact Or.inl hold
        · exact Or.inr List.mem_cons_self
      · exact Or.inr (List.mem_cons_of_mem _ hmem)
  exact (hall docs [] h).resolve_left (by simp)

/-- Documents of different names stand in the order in which they were added. -/
theorem documents_ofDocuments (htexts : ∀ d ∈ docs, ∃ text, d.name = .string text)
    (hnodup : (docs.map fun d => d.name).Nodup) :
    (ofDocuments docs).documents = docs.map fun d => (d.name, d) := by
  have hnew : ∀ (d : Document) (table : List (Json × Document)),
      (∀ entry ∈ table, entry.1.sameKey d.name = false) →
        Json.insert d.name d table = table ++ [(d.name, d)] := by
    intro d table
    induction table with
    | nil => exact fun _ => rfl
    | cons entry table ih =>
      intro h
      obtain ⟨hentry, hrest⟩ := List.forall_mem_cons.1 h
      rw [Json.insert, if_neg (by simp [hentry]), ih hrest]
      rfl
  induction docs using List.reverseRecOn with
  | nil => rfl
  | append_singleton docs d ih =>
    rw [List.map_append, List.map_singleton] at hnodup
    obtain ⟨hold, -, hapart⟩ := List.nodup_append.1 hnodup
    have hdocs := ih (fun d' hd' => htexts d' (List.mem_append_left _ hd')) hold
    simp only [ofDocuments] at hdocs ⊢
    rw [List.foldl_append, hdocs, List.foldl_cons, List.foldl_nil, hnew, List.map_append,
      List.map_singleton]
    intro entry hentry
    obtain ⟨d', hd', rfl⟩ := List.mem_map.1 hentry
    obtain ⟨text, htext⟩ := htexts d (by simp)
    obtain ⟨text', htext'⟩ := htexts d' (by simp [hd'])
    have hne := hapart _ (List.mem_map_of_mem hd') _ (List.mem_singleton_self _)
    rw [htext, htext'] at hne ⊢
    simpa using hne

/-- Documents with texts for names are kept by their names. -/
theorem isKeyed_ofDocuments (htexts : ∀ d ∈ docs, ∃ text, d.name = .string text) :
    (ofDocuments docs).IsKeyed := by
  induction docs using List.reverseRecOn with
  | nil => exact isKeyed_empty
  | append_singleton docs d ih =>
    obtain ⟨text, htext⟩ := htexts d (by simp)
    have hkeyed : (ofDocuments docs).IsKeyed :=
      ih fun d hd => htexts d (List.mem_append_left _ hd)
    refine hkeyed.add (?_ : (ofDocuments docs).add d = _)
    simp only [add, htext, Json.asKey_string, ofDocuments, List.foldl_append, List.foldl_cons,
      List.foldl_nil, bind, Except.bind, pure, Except.pure]

/-- Of the documents of one name, a schema has the last one. -/
theorem exists_last_of_mem (htexts : ∀ d ∈ docs, ∃ text, d.name = .string text) {entry : Json × Document}
    (h : entry ∈ (ofDocuments docs).documents) : ∃ before after,
      docs = before ++ entry.2 :: after ∧ ∀ later ∈ after, later.name ≠ entry.2.name := by
  induction docs using List.reverseRecOn with
  | nil => cases h
  | append_singleton docs d ih =>
    have hold : ∀ d ∈ docs, ∃ text, d.name = .string text :=
      fun d hd => htexts d (List.mem_append_left _ hd)
    obtain ⟨text, htext⟩ := htexts d (by simp)
    have hkeyed : (ofDocuments docs).IsKeyed := isKeyed_ofDocuments hold
    have hnames : ∀ entry ∈ (ofDocuments docs).documents, entry.1 = entry.2.name := by
      intro entry hentry
      obtain ⟨name, hname⟩ := hold _ (mem_of_mem_documents_ofDocuments hentry)
      rw [hname]
      exact Json.eq_string_of_text? (by rw [hkeyed.keys entry hentry, hname]; rfl)
    have hinsert : entry ∈ Json.insert d.name d (ofDocuments docs).documents := by
      simpa only [ofDocuments, List.foldl_append, List.foldl_cons, List.foldl_nil] using h
    obtain ⟨rfl, -⟩ | ⟨hmem, hother⟩ :=
      Json.not_sameKey_of_mem_insert (fun entry hentry => by
        obtain ⟨name, hname⟩ := hold _ (mem_of_mem_documents_ofDocuments hentry)
        rw [hnames entry hentry, hname]
        rfl) hkeyed.nodup hinsert
    · exact ⟨docs, [], rfl, by simp⟩
    · obtain ⟨before, after, hdocs, hlater⟩ := ih hold hmem
      refine ⟨before, after ++ [d], by rw [hdocs]; simp, ?_⟩
      simp only [List.mem_append, List.mem_singleton]
      rintro later (hafter | rfl)
      · exact hlater later hafter
      · intro heq
        rw [hnames entry hmem, ← heq, htext] at hother
        simp at hother

theorem ofJson_eq_ofDocuments (hparts : a.fieldOr "namespaces" (.list []) = .ok (.list parts))
    (hdocs : List.Forall₂ (fun part d => Document.ofJson part = .ok d) parts docs)
    (htexts : ∀ d ∈ docs, ∃ text, d.name = .string text) : ofJson a = .ok (ofDocuments docs) := by
  have hall : ∀ s : Schema, parts.foldlM (fun s part => do s.add (← Document.ofJson part)) s =
      .ok { documents := docs.foldl (fun table d => Json.insert d.name d table) s.documents } := by
    clear hparts
    induction hdocs with
    | nil => exact fun _ => rfl
    | cons hd _ ih =>
      intro s
      obtain ⟨⟨text, htext⟩, hrest⟩ := List.forall_mem_cons.1 htexts
      rw [List.foldlM_cons, hd]
      simp only [bind, Except.bind, add, htext, Json.asKey_string, pure, Except.pure]
      rw [List.foldl_cons, htext]
      exact ih hrest _
  rw [ofJson, hparts]
  exact hall {}

end Schema

/-- The schema of a well-typed description. -/
theorem Json.DescribesSchema.exists_schema {a : Json} (h : a.DescribesSchema) :
    ∃ parts docs, a.fieldOr "namespaces" (.list []) = .ok (.list parts) ∧
      List.Forall₂ (fun part d => Document.ofJson part = .ok d) parts docs ∧
      (∀ d ∈ docs, d.IsTyped) ∧ Schema.ofJson a = .ok (.ofDocuments docs) := by
  obtain ⟨parts, hparts, hall⟩ := h
  obtain ⟨docs, hdocs, htyped⟩ :=
    exists_mapM_eq_ok fun part hpart => (hall part hpart).exists_document
  rw [mapM_eq_ok_iff] at hdocs
  exact ⟨parts, docs, hparts, hdocs, htyped,
    Schema.ofJson_eq_ofDocuments hparts hdocs fun d hd => (htyped d hd).name⟩

/-- Each document of a schema comes of a part of its description. -/
theorem Json.DescribesSchema.exists_part {a : Json} {s : Schema} (h : a.DescribesSchema)
    (hs : Schema.ofJson a = .ok s) {entry : Json × Document} (hentry : entry ∈ s.documents) :
    ∃ part, Document.ofJson part = .ok entry.2 := by
  obtain ⟨parts, docs, -, hdocs, -, hschema⟩ := h.exists_schema
  obtain rfl := Except.ok.inj (hs.symm.trans hschema)
  obtain ⟨part, -, hpart⟩ :=
    exists_of_mem_forall₂ hdocs (Schema.mem_of_mem_documents_ofDocuments hentry)
  exact ⟨part, hpart⟩

/-- The documents of a schema from a well-typed description are typed, and so is the schema. -/
theorem Json.DescribesSchema.isTyped {a : Json} {s : Schema} (h : a.DescribesSchema)
    (hs : Schema.ofJson a = .ok s) :
    s.IsTyped ∧ ∀ entry ∈ s.documents, entry.2.IsTyped := by
  obtain ⟨parts, docs, -, -, htyped, hschema⟩ := h.exists_schema
  obtain rfl := Except.ok.inj (hs.symm.trans hschema)
  have hdocs : ∀ entry ∈ (Schema.ofDocuments docs).documents, entry.2.IsTyped :=
    fun entry hentry => htyped _ (Schema.mem_of_mem_documents_ofDocuments hentry)
  refine ⟨⟨Schema.isKeyed_ofJson hs, fun entry hentry => (hdocs entry hentry).name, ?_⟩, hdocs⟩
  intro entry hentry import_ himport
  obtain ⟨fields, himports, htexts⟩ := (hdocs entry hentry).imports
  rw [himports] at himport
  obtain ⟨field, hfield, rfl⟩ := List.mem_map.1 himport
  exact htexts.texts field hfield

end SchemaArtifacts
