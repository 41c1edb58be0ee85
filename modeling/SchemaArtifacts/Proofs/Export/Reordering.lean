import SchemaArtifacts.Format.Label
import SchemaArtifacts.Proofs.Export.Finding
import SchemaArtifacts.Proofs.Model.Alike
import SchemaArtifacts.Proofs.Model.Description

/-!
# Output does not depend on the order of the input

A description may list its namespaces in any order, and each of them its imports. The schemas of two
descriptions that differ in this alone are alike: they collect documents of the same names in the
same order, and what is written for a name is the same text.

## Main definitions

* `Json.IsReordered` — descriptions of a namespace that differ in the order of the imports
* `Json.IsShuffled` — descriptions of a schema that differ in the order of the namespaces, and these
  in the order of their imports
* `Json.HasDistinctNames` — no two namespaces of a description have the same name

## Main results

* `Document.Alike.headerBelow`, `Document.Alike.textBelow` — alike documents are written alike
* `Json.IsReordered.document` — reordered descriptions of a namespace have alike documents
* `Json.IsShuffled.schema` — and those of a schema have alike schemas
* `Schema.output_of_shuffled` — what is collected and what is written is the same
-/

namespace SchemaArtifacts

/-! ## Alike documents -/

/-- The same document with its aliases in use in another order. -/
def Document.withUsed (d : Document) (used : List String) (h : used.Perm d.used) : Document :=
  { d with used, known := fun alias_ ha => d.known alias_ (h.mem_iff.1 ha) }

namespace Document.Alike

variable {d d' : Document}

/-- The aliases in use may stand in any order. -/
theorem withUsed (h : d.Alike d') {used used' : List String} (hused : used.Perm d.used)
    (hused' : used'.Perm d'.used) : (d.withUsed used hused).Alike (d'.withUsed used' hused') :=
  ⟨⟨h.name, h.fullName?, hused'.trans (h.used.trans hused.symm)⟩, h.declarations⟩

theorem headerBelow (h : d.Alike d') (root : AbsolutePath) (format : Format) :
    d'.headerBelow root format = d.headerBelow root format := by
  have hspecifier : d'.specifierBelow root = d.specifierBelow root := by
    funext name
    simp only [specifierBelow, homeBelow, h.name]
  unfold Document.headerBelow
  rw [h.foreignImports, hspecifier]

theorem textBelow (h : d.Alike d') (root : AbsolutePath) {label : String} {format : Format}
    (hformat : Format.ofLabel label = .ok format) :
    d'.textBelow root format = d.textBelow root format := by
  have hcompose : format.compose d' = format.compose d := by
    obtain rfl | rfl := Format.eq_or_eq_of_ofLabel hformat
    · simp only [Format.typeScript, TypeScript.text, TypeScript.lines, h.declarations]
    · simp only [Format.javaScript, h.declarations]
  rw [Document.textBelow, hcompose, h.headerBelow, Document.textBelow]

end Document.Alike

/-! ## Reordered descriptions -/

namespace Json

variable {a b : Json}

/-- The descriptions of two namespaces agree but for the order of the imports. -/
structure IsReordered (a b : Json) : Prop where
  name : b.lookup "name" = a.lookup "name"
  imports : ∃ fields fields', a.fieldOr "imports" (.object []) = .ok (.object fields) ∧
    b.fieldOr "imports" (.object []) = .ok (.object fields') ∧ fields.Perm fields'
  declarations : b.fieldOr "declarations" (.list []) = a.fieldOr "declarations" (.list [])

/-- The descriptions of two schemas agree but for the order of the namespaces, and of the imports of
each namespace. -/
def IsShuffled (a b : Json) : Prop :=
  ∃ parts parts' reordered, a.fieldOr "namespaces" (.list []) = .ok (.list parts) ∧
    b.fieldOr "namespaces" (.list []) = .ok (.list parts') ∧
    List.Forall₂ IsReordered parts reordered ∧ reordered.Perm parts'

/-- No two namespaces of a description have the same name. -/
def HasDistinctNames (a : Json) : Prop :=
  ∀ parts, a.fieldOr "namespaces" (.list []) = .ok (.list parts) →
    (parts.map fun part => part.lookup "name").Nodup

theorem field?_append (name : String) (fields rest : List (String × Json)) :
    field? name (fields ++ rest) = (field? name fields).or (field? name rest) := by
  induction fields with
  | nil => rfl
  | cons field fields ih =>
    rw [List.cons_append, field?, field?, ih]
    split <;> rfl

/-- It makes no difference where the entries of the imports stand in their object. -/
theorem isReordered_of_perm {before after fields fields' : List (String × Json)}
    (h : fields.Perm fields') (hfirst : field? "imports" before = none) :
    IsReordered (.object (before ++ ("imports", .object fields) :: after))
      (.object (before ++ ("imports", .object fields') :: after)) := by
  have hother : ∀ name, name ≠ "imports" →
      field? name (before ++ ("imports", .object fields') :: after) =
        field? name (before ++ ("imports", .object fields) :: after) := by
    intro name hname
    rw [field?_append, field?_append, field?, field?, if_neg hname.symm, if_neg hname.symm]
  have hsame : ∀ fields, field? "imports" (before ++ ("imports", .object fields) :: after) =
      some (.object fields) := by
    intro fields
    rw [field?_append, hfirst, Option.none_or, field?, if_pos rfl]
  refine ⟨?_, ⟨fields, fields', ?_, ?_, h⟩, ?_⟩
  · rw [lookup_object, lookup_object, hother _ (by decide)]
  · simp [fieldOr, Json.fields, Except.map, hsame]
  · simp [fieldOr, Json.fields, Except.map, hsame]
  · simp [fieldOr, Json.fields, Except.map, hother]

theorem IsReordered.describesNamespace (h : a.IsReordered b) (ha : a.DescribesNamespace) :
    b.DescribesNamespace := by
  obtain ⟨fields, fields', hfields, hfields', hperm⟩ := h.imports
  obtain ⟨_, hsame, htexts⟩ := ha.imports
  obtain rfl : fields = _ := by simpa using hfields.symm.trans hsame
  refine ⟨h.name ▸ ha.name, ⟨fields', hfields', ?_, ?_⟩, h.declarations ▸ ha.declarations⟩
  · exact (hperm.map _).nodup_iff.1 htexts.nodup
  · exact fun field hfield => htexts.texts field (hperm.symm.subset hfield)

/-- An alias leads to the same name wherever it stands among the imports. -/
theorem find?_imports_of_perm {fields fields' : List (String × Json)} (h : fields.Perm fields')
    (hfields : AreTexts fields) (key : Json) :
    find? key (fields'.map fun field => (string field.1, field.2)) =
      find? key (fields.map fun field => (string field.1, field.2)) := by
  refine find?_of_perm (h.map _) (hasKeysApart_of_texts ?_ ?_) key
  · rw [List.forall_mem_map]
    exact fun field _ => rfl
  · simpa [List.filterMap_map, Function.comp_def, text?] using hfields.nodup

/-- Reordered descriptions of a namespace have alike documents. -/
theorem IsReordered.document (h : a.IsReordered b) (ha : a.DescribesNamespace) {d d' : Document}
    (hd : Document.ofJson a = .ok d) (hd' : Document.ofJson b = .ok d') : d.Alike d' := by
  obtain ⟨name, value, imports, declarations, hname, hvalue, himports, hdeclarations, rfl⟩ :=
    Document.ofJson_eq_ok_iff.1 hd
  obtain ⟨name', value', imports', declarations', hname', hvalue', himports', hdeclarations',
    rfl⟩ := Document.ofJson_eq_ok_iff.1 hd'
  obtain ⟨fields, fields', hfields, hfields', hperm⟩ := h.imports
  obtain ⟨_, hsame, htexts⟩ := ha.imports
  obtain rfl : fields = _ := by simpa using hfields.symm.trans hsame
  obtain rfl := Except.ok.inj (hvalue.symm.trans hfields)
  obtain rfl := Except.ok.inj (hvalue'.symm.trans hfields')
  obtain rfl := Except.ok.inj himports
  obtain rfl := Except.ok.inj himports'
  have hsameName : name' = name := by
    simpa using hname'.symm.trans (h.name.trans hname)
  have hsameDeclarations : declarations' = declarations := by
    rw [Document.declarationsOf, h.declarations] at hdeclarations'
    exact Except.ok.inj (hdeclarations'.symm.trans hdeclarations)
  subst hsameName hsameDeclarations
  refine Document.Alike.markAll ⟨⟨rfl, fun alias_ => ?_, .refl _⟩, rfl⟩
  exact find?_imports_of_perm hperm htexts _

theorem documents_of_forall₂ {parts reordered : List Json} {docs docs' : List Document}
    (hparts : ∀ part ∈ parts, part.DescribesNamespace)
    (hreordered : List.Forall₂ IsReordered parts reordered)
    (hdocs : List.Forall₂ (fun part d => Document.ofJson part = .ok d) parts docs)
    (hdocs' : List.Forall₂ (fun part d => Document.ofJson part = .ok d) reordered docs') :
    List.Forall₂ Document.Alike docs docs' := by
  induction hreordered generalizing docs docs' with
  | nil =>
    cases hdocs
    cases hdocs'
    exact .nil
  | cons hpair _ ih =>
    obtain ⟨hpart, hrest⟩ := List.forall_mem_cons.1 hparts
    obtain _ | ⟨hd, hdocs⟩ := hdocs
    obtain _ | ⟨hd', hdocs'⟩ := hdocs'
    exact .cons (hpair.document hpart hd hd') (ih hrest hdocs hdocs')

/-- The name of a document is that of its description. -/
theorem nodup_names_of_forall₂ {parts : List Json} {docs : List Document}
    (hdocs : List.Forall₂ (fun part d => Document.ofJson part = .ok d) parts docs)
    (hnodup : (parts.map fun part => part.lookup "name").Nodup) :
    (docs.map fun d => d.name).Nodup := by
  have hnames : (parts.map fun part => part.lookup "name") =
      docs.map fun d => Except.ok d.name := by
    clear hnodup
    induction hdocs with
    | nil => rfl
    | cons hd _ ih =>
      obtain ⟨name, value, imports, declarations, hname, -, -, -, rfl⟩ :=
        Document.ofJson_eq_ok_iff.1 hd
      rw [List.map_cons, List.map_cons, ih, hname, Document.name_markAll]
  have hlooked : ((docs.map fun d => d.name).map
      (Except.ok : Json → Except ShapeError Json)).Nodup := by
    rw [List.map_map, Function.comp_def, ← hnames]
    exact hnodup
  exact hlooked.of_map _

/-- Shuffled descriptions of a schema have alike schemas. -/
theorem IsShuffled.schema (h : a.IsShuffled b) (ha : a.DescribesSchema)
    (hdistinct : a.HasDistinctNames) : ∃ s s', Schema.ofJson a = .ok s ∧ Schema.ofJson b = .ok s' ∧
      s.IsTyped ∧ s'.IsTyped ∧ s.Alike s' := by
  obtain ⟨parts, docs, hparts, hdocs, htyped, hs⟩ := ha.exists_schema
  obtain ⟨_, parts', reordered, hsame, hparts', hreordered, hperm⟩ := h
  obtain rfl : parts = _ := by simpa using hparts.symm.trans hsame
  obtain ⟨_, hsame', hall⟩ := id ha
  obtain rfl : parts = _ := by simpa using hparts.symm.trans hsame'
  have hb : b.DescribesSchema := by
    refine ⟨parts', hparts', fun part' hpart' => ?_⟩
    obtain ⟨part, hpart, hpair⟩ := exists_of_mem_forall₂ hreordered (hperm.symm.subset hpart')
    exact hpair.describesNamespace (hall part hpart)
  obtain ⟨_, docs', hsame'', hdocs', htyped', hs'⟩ := hb.exists_schema
  obtain rfl : parts' = _ := by simpa using hparts'.symm.trans hsame''
  obtain ⟨between, hbetween, hpermDocs⟩ := List.perm_comp_forall₂ hperm hdocs'
  have halike : List.Forall₂ Document.Alike docs between :=
    documents_of_forall₂ hall hreordered hdocs hbetween
  have hnodup : (docs.map fun d => d.name).Nodup :=
    nodup_names_of_forall₂ hdocs (hdistinct parts hparts)
  have hnodup' : (docs'.map fun d => d.name).Nodup := by
    have hnames : (between.map fun d => d.name) = docs.map fun d => d.name := by
      clear hbetween hpermDocs hdocs htyped hs hnodup
      induction halike with
      | nil => rfl
      | cons hpair _ ih => rw [List.map_cons, List.map_cons, hpair.name, ih]
    rw [← hnames] at hnodup
    exact (hpermDocs.map _).nodup_iff.1 hnodup
  refine ⟨_, _, hs, hs', (ha.isTyped hs).1, (hb.isTyped hs').1,
    between.map fun d => (d.name, d), ?_, ?_⟩
  · rw [Schema.documents_ofDocuments (fun d hd => (htyped d hd).name) hnodup,
      List.forall₂_map_left_iff, List.forall₂_map_right_iff]
    exact halike.imp fun _ _ h => ⟨h.name, h⟩
  · rw [Schema.documents_ofDocuments (fun d hd => (htyped' d hd).name) hnodup']
    exact hpermDocs.map _

end Json

/-! ## Output -/

open Exporter in
/-- A description in any other order leads to the same output. -/
theorem Schema.output_of_shuffled {a b : Json} (ha : a.DescribesSchema)
    (hdistinct : a.HasDistinctNames) (h : a.IsShuffled b) : ∃ s s',
      Schema.ofJson a = .ok s ∧ Schema.ofJson b = .ok s' ∧
      (∀ roots : Json, (s'.collect roots).map (List.map fun d => d.name) =
        (s.collect roots).map (List.map fun d => d.name)) ∧
      (∀ name, (s'.named? name).isSome = (s.named? name).isSome) ∧
      ∀ (name : String) (d d' : Document), s.named? name = some d → s'.named? name = some d' →
        ∀ (used used' : List String) (hused : used.Perm d.used) (hused' : used'.Perm d'.used)
          (label : String) (c c' : Cache) (e e' : Exporter), Format.ofLabel label = .ok e.format →
          e'.format = e.format → c'.root = c.root → e.StandsFor c.root (d.withUsed used hused) →
          e'.StandsFor c'.root (d'.withUsed used' hused') →
          ((header Cache.shelf).run (c', e')).1 = ((header Cache.shelf).run (c, e)).1 ∧
            ((contents Cache.shelf).run (c', e')).1 = ((contents Cache.shelf).run (c, e)).1 := by
  obtain ⟨s, s', hs, hs', htyped, htyped', halike⟩ := h.schema ha hdistinct
  refine ⟨s, s', hs, hs', halike.collect htyped htyped', fun name => ?_, ?_⟩
  · have hfound := halike.find? htyped' (.string name)
    unfold Schema.named?
    generalize Json.find? (.string name) s.documents = found at hfound ⊢
    generalize Json.find? (.string name) s'.documents = found' at hfound ⊢
    cases hfound <;> rfl
  · intro name d d' hd hd' used used' hused hused' label c c' e e' hformat hsame hroot he he'
    have hfound := halike.find? htyped' (.string name)
    have hd : Json.find? (.string name) s.documents = some d := hd
    have hd' : Json.find? (.string name) s'.documents = some d' := hd'
    rw [hd, hd', Option.rel_some_some] at hfound
    have hdoc := hfound.withUsed hused hused'
    obtain ⟨_, hrun, -⟩ := run_header he
    obtain ⟨_, hrun', -⟩ := run_header he'
    obtain ⟨_, htext, -⟩ := run_contents he
    obtain ⟨_, htext', -⟩ := run_contents he'
    rw [hrun, hrun', htext, htext', hsame, hroot, hdoc.headerBelow, hdoc.textBelow _ hformat]
    exact ⟨rfl, rfl⟩

open Exporter in
/-- A namespace imports two others, one of which it uses; listed the other way round, and after a
namespace that stood behind it, it is written as before. -/
theorem Schema.output_of_shuffled_swap : ∃ (a b : Json) (s s' : Schema) (d d' : Document)
    (text : String), a.DescribesSchema ∧ a.HasDistinctNames ∧ a.IsShuffled b ∧
      Schema.ofJson a = .ok s ∧ Schema.ofJson b = .ok s' ∧
      s.named? "x" = some d ∧ s'.named? "x" = some d' ∧
      text = "import * as B from './b';\n\nexport interface T extends B.U {}\n" ∧
      ((contents Cache.shelf).run
        ({ root := .top }, { doc := some d, format := .typeScript })).1 = .ok text ∧
      ((contents Cache.shelf).run
        ({ root := .top }, { doc := some d', format := .typeScript })).1 = .ok text := by
  let declarations : Json := .list [.object [("name", .string "T"), ("base", .string "B:U")]]
  let imports : List (String × Json) := [("B", .string "b"), ("A", .string "a")]
  let x (imports : List (String × Json)) : Json := .object
    [("name", .string "x"), ("imports", .object imports), ("declarations", declarations)]
  let y : Json := .object [("name", .string "y")]
  let a : Json := .object [("namespaces", .list [x imports, y])]
  let b : Json := .object [("namespaces", .list [y, x imports.reverse])]
  have hx : (x imports).DescribesNamespace := by
    refine ⟨⟨"x", rfl⟩, ⟨imports, rfl, by decide, by simp [imports]⟩, ⟨_, rfl, ?_⟩⟩
    simp only [List.forall_mem_singleton]
    exact ⟨⟨"T", rfl⟩, Or.inr ⟨"B:U", rfl⟩, ⟨[], rfl, by simp⟩⟩
  have hy : y.DescribesNamespace := ⟨⟨"y", rfl⟩, ⟨[], rfl, by simp, by simp⟩, ⟨[], rfl, by simp⟩⟩
  have ha : a.DescribesSchema := ⟨_, rfl, by simp [hx, hy]⟩
  have hdistinct : a.HasDistinctNames := by
    intro parts hparts
    change Except.ok (Json.list [x imports, y]) = _ at hparts
    cases hparts
    simp [x, y, Json.field?]
  have hshuffled : a.IsShuffled b := by
    refine ⟨_, _, [x imports.reverse, y], rfl, rfl, .cons ?_ (.cons ?_ .nil), .swap _ _ _⟩
    · exact @Json.isReordered_of_perm [("name", .string "x")] _ _ _ (List.reverse_perm _).symm rfl
    · exact ⟨rfl, ⟨[], [], rfl, rfl, .nil⟩, rfl⟩
  let c : Cache := { root := .top }
  let text := "import * as B from './b';\n\nexport interface T extends B.U {}\n"
  have hrun : ((Schema.ofJson a).toOption.bind (·.named? "x")).bind (fun d =>
      ((contents Cache.shelf).run (c, { doc := some d, format := .typeScript })).1.toOption) =
        some text := by
    decide +kernel
  obtain ⟨s, s', hs, hs', -, hnames, houtput⟩ := output_of_shuffled ha hdistinct hshuffled
  rw [hs] at hrun
  obtain ⟨d, hd, hrun⟩ := Option.bind_eq_some_iff.1 hrun
  have hd : s.named? "x" = some d := hd
  obtain ⟨d', hd'⟩ := Option.isSome_iff_exists.1 ((hnames "x").trans (by rw [hd]; rfl))
  have htext := Act.eq_ok_of_toOption hrun
  obtain ⟨-, hsame⟩ := houtput "x" d d' hd hd' d.used d'.used (.refl _) (.refl _) "ts" c c
    { doc := some d, format := .typeScript } { doc := some d', format := .typeScript } rfl rfl rfl
    ⟨rfl, fun _ hdir => by cases hdir⟩ ⟨rfl, fun _ hdir => by cases hdir⟩
  exact ⟨a, b, s, s', d, d', text, ha, hdistinct, hshuffled, hs, hs', hd, hd', rfl, htext,
    hsame.trans htext⟩

end SchemaArtifacts
