import SchemaArtifacts.Format.JavaScript
import SchemaArtifacts.Proofs.Export.Finding
import SchemaArtifacts.Proofs.Json.RoundTrip
import SchemaArtifacts.Proofs.Model.Description

/-!
# Tables of types read back

A JavaScript module is its import lines and a value: the table of its declarations by name. The
value is plain, so it reads back. A declaration of a name that is there already replaces the entry,
which keeps its place. Where no name is declared twice, nothing is lost: the table, the name and the
imports describe the document.

## Main definitions

* `JavaScript.fieldsOf` — the fields of a table
* `JavaScript.description`, `JavaScript.documentDescription` — what describes a declaration and a
  document once the table was read

## Main results

* `JavaScript.exists_table` — typed declarations have a table
* `JavaScript.map_fst_fieldsOf`, `JavaScript.field?_fieldsOf` — its names, and what they stand for
* `JavaScript.ofJson_documentDescription` — the document is read from its table
* `Exporter.table_reads_back` — the whole text, from a description to a description
-/

namespace SchemaArtifacts

namespace JavaScript

/-! ## The table -/

/-- The fields of the table of some declarations, by the texts that are their names. -/
def fieldsOf (declarations : List Declaration) : List (String × Json) :=
  declarations.foldl (fun fields d => Json.setField d.name.keyText (entry d) fields) []

variable {declarations : List Declaration}

theorem fieldsOf_concat (declarations : List Declaration) (d : Declaration) :
    fieldsOf (declarations ++ [d]) =
      Json.setField d.name.keyText (entry d) (fieldsOf declarations) := by
  rw [fieldsOf, List.foldl_append, List.foldl_cons, List.foldl_nil, fieldsOf]

/-- Setting an entry under a text sets the field of this text. -/
theorem map_keyText_insert {known : List (Json × Json)}
    (h : ∀ e ∈ known, ∃ text, e.1 = .string text) (name : String) (a : Json) :
    (Json.insert (.string name) a known).map (fun e => (e.1.keyText, e.2)) =
      Json.setField name a (known.map fun e => (e.1.keyText, e.2)) := by
  induction known with
  | nil => rfl
  | cons e known ih =>
    obtain ⟨⟨text, htext⟩, hrest⟩ := List.forall_mem_cons.1 h
    obtain ⟨k, b⟩ := e
    subst htext
    by_cases hsame : text = name
    · simp [Json.insert, Json.setField, Json.keyText, hsame]
    · simpa [Json.insert, Json.setField, Json.keyText, hsame] using ih hrest

/-- The table of typed declarations is the object of their fields. -/
theorem exists_table (h : ∀ d ∈ declarations, d.IsTyped) : ∃ entries,
    table declarations = .ok entries ∧ tableValue entries = .object (fieldsOf declarations) := by
  have hall : ∀ (declarations : List Declaration) (known : List (Json × Json)),
      (∀ d ∈ declarations, d.IsTyped) → (∀ e ∈ known, ∃ text, e.1 = .string text) →
        ∃ entries, declarations.foldlM
            (fun known d => do return Json.insert (← d.name.asKey) (entry d) known) known =
              (.ok entries : Except ShapeError (List (Json × Json))) ∧
          entries.map (fun e => (e.1.keyText, e.2)) = declarations.foldl
            (fun fields d => Json.setField d.name.keyText (entry d) fields)
            (known.map fun e => (e.1.keyText, e.2)) := by
    intro declarations
    induction declarations with
    | nil => exact fun known _ _ => ⟨known, rfl, rfl⟩
    | cons d declarations ih =>
      intro known hdeclarations hknown
      obtain ⟨hd, hrest⟩ := List.forall_mem_cons.1 hdeclarations
      obtain ⟨name, hname⟩ := hd.name
      have hkeys : ∀ e ∈ Json.insert (.string name) (entry d) known,
          ∃ text, e.1 = .string text := by
        intro e he
        obtain hold | ⟨-, htext⟩ := Json.mem_insert he
        · exact hknown e hold
        · exact ⟨name, Json.eq_string_of_text? htext⟩
      obtain ⟨entries, hentries, hfields⟩ := ih _ hrest hkeys
      refine ⟨entries, ?_, ?_⟩
      · rw [List.foldlM_cons, hname]
        exact hentries
      · rw [hfields, map_keyText_insert hknown, List.foldl_cons, hname]
        rfl
  obtain ⟨entries, hentries, hfields⟩ := hall declarations [] h (by simp)
  exact ⟨entries, hentries, congrArg Json.object hfields⟩

theorem map_fst_setField (name : String) (a : Json) (fields : List (String × Json)) :
    (Json.setField name a fields).map Prod.fst =
      if name ∈ fields.map Prod.fst then fields.map Prod.fst
      else fields.map Prod.fst ++ [name] := by
  induction fields with
  | nil => rfl
  | cons field fields ih =>
    obtain ⟨other, b⟩ := field
    by_cases hsame : other = name
    · simp [Json.setField, hsame]
    · rw [Json.setField, if_neg hsame, List.map_cons, ih]
      simp only [List.map_cons, List.mem_cons, Ne.symm hsame, false_or]
      split <;> rfl

/-- The names of the fields are those of the declarations, each at its first place. -/
theorem map_fst_fieldsOf (declarations : List Declaration) :
    (fieldsOf declarations).map Prod.fst =
      (declarations.map fun d => d.name.keyText).eraseDups := by
  induction declarations using List.reverseRecOn with
  | nil => rfl
  | append_singleton declarations d ih =>
    rw [fieldsOf_concat, map_fst_setField, ih, List.map_append, List.eraseDups_append]
    generalize declarations.map (fun d => d.name.keyText) = names
    rw [List.map_singleton]
    by_cases hold : d.name.keyText ∈ names
    · rw [if_pos (List.mem_eraseDups.2 hold)]
      simp [List.removeAll, hold]
    · rw [if_neg (mt List.mem_eraseDups.1 hold)]
      simp [List.removeAll, hold, List.eraseDups_cons]

theorem nodup_fieldsOf (declarations : List Declaration) :
    ((fieldsOf declarations).map Prod.fst).Nodup := by
  induction declarations using List.reverseRecOn with
  | nil => exact List.nodup_nil
  | append_singleton declarations d ih =>
    rw [fieldsOf_concat, map_fst_setField]
    split
    · exact ih
    · rename_i hnew
      rw [← List.concat_eq_append]
      exact List.Nodup.concat hnew ih

/-- A name stands for the entry of the last declaration of that name. -/
theorem field?_fieldsOf {before after : List Declaration} {d : Declaration}
    (h : ∀ later ∈ after, later.name.keyText ≠ d.name.keyText) :
    Json.field? d.name.keyText (fieldsOf (before ++ d :: after)) = some (entry d) := by
  induction after using List.reverseRecOn with
  | nil => rw [fieldsOf_concat, Json.field?_setField_self]
  | append_singleton after later ih =>
    rw [← List.cons_append, ← List.append_assoc, fieldsOf_concat,
      Json.field?_setField_ne (h later (by simp)).symm]
    exact ih fun later hlater => h later (by simp [hlater])

/-! ## The text of the table -/

theorem isPlain_memberEntry {m : Member} (h : m.IsTyped) : (memberEntry m).IsPlain := by
  obtain ⟨name, hname⟩ := h.name
  obtain ⟨optional, hoptional⟩ := h.optional
  obtain ⟨array, harray⟩ := h.array
  rw [memberEntry, hname, hoptional, harray]
  refine .object (by simp) ?_
  simp only [List.forall_mem_cons]
  exact ⟨.string _, .string _, .bool _, .bool _, by simp⟩

theorem isPlain_entry {d : Declaration} (h : d.IsTyped) : (entry d).IsPlain := by
  have hbase : d.base.IsPlain := by
    obtain hnull | ⟨text, htext⟩ := h.base
    · rw [hnull]
      exact .null
    · rw [htext]
      exact .string text
  refine .object (by simp) ?_
  simp only [List.forall_mem_cons]
  refine ⟨hbase, .list (List.forall_mem_map.2 fun m hm => isPlain_memberEntry (h.members m hm)), ?_⟩
  simp

theorem mem_setField {name : String} {a : Json} {fields : List (String × Json)}
    {field : String × Json} (h : field ∈ Json.setField name a fields) :
    field ∈ fields ∨ field = (name, a) := by
  induction fields with
  | nil => exact Or.inr (List.mem_singleton.1 h)
  | cons first fields ih =>
    obtain ⟨other, b⟩ := first
    rw [Json.setField] at h
    split at h
    · rename_i hsame
      subst hsame
      obtain rfl | hmem := List.mem_cons.1 h
      · exact Or.inr rfl
      · exact Or.inl (List.mem_cons_of_mem _ hmem)
    · obtain rfl | hmem := List.mem_cons.1 h
      · exact Or.inl List.mem_cons_self
      · exact (ih hmem).imp_left (List.mem_cons_of_mem _)

/-- Each field is the entry of a declaration. -/
theorem exists_of_mem_fieldsOf {field : String × Json} (h : field ∈ fieldsOf declarations) :
    ∃ d ∈ declarations, field = (d.name.keyText, entry d) := by
  induction declarations using List.reverseRecOn with
  | nil => cases h
  | append_singleton declarations d ih =>
    rw [fieldsOf_concat] at h
    obtain hold | hnew := mem_setField h
    · obtain ⟨d', hd', hfield⟩ := ih hold
      exact ⟨d', List.mem_append_left _ hd', hfield⟩
    · exact ⟨d, by simp, hnew⟩

/-- The table of typed declarations can be written and read back. -/
theorem isPlain_fieldsOf (h : ∀ d ∈ declarations, d.IsTyped) :
    (Json.object (fieldsOf declarations)).IsPlain := by
  refine .object (nodup_fieldsOf declarations) fun field hfield => ?_
  obtain ⟨d, hd, rfl⟩ := exists_of_mem_fieldsOf hfield
  exact isPlain_entry (h d hd)

/-! ## Back to declarations -/

/-- The description of a declaration that a field of the table stands for: its entry, with the key
as its name. -/
def description (field : String × Json) : Json :=
  match field.2 with
  | .object entry => .object (("name", .string field.1) :: entry)
  | other => other

/-- A traversal of what was made of some items has a result for each of them. -/
theorem mapM_map_eq_ok {α β γ ε : Type} {f : β → Except ε γ} {make : α → β} {result : α → γ}
    {as : List α} (h : ∀ a ∈ as, f (make a) = .ok (result a)) :
    (as.map make).mapM f = .ok (as.map result) := by
  rw [mapM_eq_ok_iff, List.forall₂_map_left_iff, List.forall₂_map_right_iff]
  exact List.forall₂_same.2 h

/-- The member before its type reference is checked. -/
def rawMember (m : Member) : RawMember :=
  { name := m.name, typeRef := .string m.typeRef, optional := m.optional, array := m.array }

/-- The declaration before its type references are checked. -/
def rawDeclaration (d : Declaration) : RawDeclaration :=
  { name := d.name, base := d.base, members := d.members.map rawMember }

theorem ofJson_description {d : Declaration} (h : d.IsTyped) :
    RawDeclaration.ofJson (description (d.name.keyText, entry d)) = .ok (rawDeclaration d) := by
  obtain ⟨name, hname⟩ := h.name
  have hmembers : (d.members.map memberEntry).mapM RawMember.ofJson =
      .ok (d.members.map rawMember) := mapM_map_eq_ok fun m _ => rfl
  rw [rawDeclaration, hname]
  change ((d.members.map memberEntry).mapM RawMember.ofJson >>= fun members =>
    .ok (RawDeclaration.mk (.string name) d.base members)) = _
  rw [hmembers]
  rfl

theorem check_rawDeclaration {d : Declaration} (h : d.IsTyped) :
    (rawDeclaration d).check = .ok d := by
  have hmembers : (d.members.map rawMember).mapM RawMember.check = .ok d.members := by
    have hall : (d.members.map rawMember).mapM RawMember.check = .ok (d.members.map id) :=
      mapM_map_eq_ok fun m _ => rfl
    rwa [List.map_id] at hall
  obtain ⟨name, base, members⟩ := d
  unfold RawDeclaration.check
  simp only [rawDeclaration, hmembers]
  obtain rfl | ⟨text, rfl⟩ := h.base
  · rfl
  · split <;> rfl

theorem fieldsOf_of_nodup (h : (declarations.map fun d => d.name.keyText).Nodup) :
    fieldsOf declarations = declarations.map fun d => (d.name.keyText, entry d) := by
  induction declarations using List.reverseRecOn with
  | nil => rfl
  | append_singleton declarations d ih =>
    rw [List.map_append, List.nodup_append] at h
    rw [fieldsOf_concat, ih h.1, Json.setField_of_notMem, List.map_append]
    · rfl
    · rw [List.map_map]
      exact fun hmem => h.2.2 _ hmem _ (by simp) rfl

theorem lookup_fieldsOf {before after : List Declaration} {d : Declaration} {name : String}
    (hname : d.name = .string name) (h : ∀ later ∈ after, later.name ≠ .string name)
    (htyped : ∀ later ∈ after, later.IsTyped) :
    (Json.object (fieldsOf (before ++ d :: after))).lookup name = .ok (entry d) := by
  have hfound : Json.field? name (fieldsOf (before ++ d :: after)) = some (entry d) := by
    have hkey : d.name.keyText = name := by rw [hname, Json.keyText]
    rw [← hkey]
    refine field?_fieldsOf fun later hlater heq => ?_
    obtain ⟨text, htext⟩ := (htyped later hlater).name
    rw [htext, Json.keyText, hkey] at heq
    exact h later hlater (by rw [htext, heq])
  rw [Json.lookup_object, hfound]
  rfl

/-- The description of a document that its name, its imports and the fields of its table make up. -/
def documentDescription (d : Document) (fields : List (String × Json)) : Json :=
  .object [("name", d.name), ("imports", tableValue d.imports),
    ("declarations", .list (fields.map description))]

/-- With the fields of its table, a document is read as it was. -/
theorem ofJson_documentDescription {d : Document} (h : d.IsTyped)
    (hmarked : d =
      .markAll { name := d.name, imports := d.imports, declarations := d.declarations })
    (hnodup : (d.declarations.map fun decl => decl.name.keyText).Nodup) :
    Document.ofJson (documentDescription d (fieldsOf d.declarations)) = .ok d := by
  have himports : (tableValue d.imports).pairs = .ok d.imports := by
    obtain ⟨fields, hfields, -⟩ := h.imports
    rw [hfields, tableValue, Json.pairs, List.map_map, List.map_map]
    rfl
  have hraw : ((fieldsOf d.declarations).map description).mapM RawDeclaration.ofJson =
      .ok (d.declarations.map rawDeclaration) := by
    rw [fieldsOf_of_nodup hnodup, List.map_map]
    exact mapM_map_eq_ok fun decl hdecl => ofJson_description (h.declarations decl hdecl)
  have hchecked : (d.declarations.map rawDeclaration).mapM RawDeclaration.check =
      .ok (d.declarations.map id) :=
    mapM_map_eq_ok fun decl hdecl => check_rawDeclaration (h.declarations decl hdecl)
  rw [List.map_id] at hchecked
  refine Document.ofJson_eq_ok_iff.2 ⟨_, _, _, _, rfl, rfl, himports, ?_, hmarked⟩
  change (((fieldsOf d.declarations).map description).mapM RawDeclaration.ofJson >>=
    fun raw => raw.mapM RawDeclaration.check) = _
  rw [hraw]
  exact hchecked

/-- Lines, one of them last, each ended by a line feed. -/
theorem joinLines_append_singleton (lines : List String) (last : String) :
    joinLines (lines ++ [last]) ++ "\n" = String.join (lines.map (· ++ "\n")) ++ last ++ "\n" := by
  induction lines with
  | nil => simp [joinLines]
  | cons line lines ih =>
    rw [joinLines] at ih ⊢
    rw [List.cons_append, String.intercalate_cons_of_ne_nil (by simp), List.map_cons,
      String.join_cons, String.append_assoc, ih]
    simp only [String.append_assoc]

end JavaScript

namespace Exporter

open JavaScript

/-- The text of a JavaScript module is its import lines and, as a value that reads back, the table
of its declarations: each name once, in the order of the first declarations and with what the last
of them says. If the names differ, the document can be read from this table again. -/
theorem table_reads_back {data key : Json} {s : Schema} {d : Document} {c : Cache} {e : Exporter}
    {lines : List String} (hdata : data.DescribesSchema) (hs : Schema.ofJson data = .ok s)
    (hd : (key, d) ∈ s.documents) (he : e.StandsFor c.root d) (hformat : e.format = .javaScript)
    (hlines : ((header Cache.shelf).run (c, e)).1 = .ok lines) :
    ∃ (value : String) (fields : List (String × Json)) (names : List String),
      ((contents Cache.shelf).run (c, e)).1 =
        .ok (String.join ((headerBlock lines).map (· ++ "\n")) ++
          "module.exports = " ++ value ++ ";\n") ∧
      Json.parse value.toList = .ok (.object fields) ∧
      d.declarations.map (fun decl => decl.name) = names.map .string ∧
      fields.map Prod.fst = names.eraseDups ∧
      (∀ before decl after name, d.declarations = before ++ decl :: after →
        decl.name = .string name → (∀ later ∈ after, later.name ≠ .string name) →
          (Json.object fields).lookup name = .ok (entry decl)) ∧
      (names.Nodup → Schema.ofJson
        (.object [("namespaces", .list [documentDescription d fields])]) =
          .ok { documents := [(d.name, d)] }) := by
  have htyped : d.IsTyped := (hdata.isTyped hs).2 _ hd
  obtain ⟨part, hpart⟩ := hdata.exists_part hs hd
  obtain ⟨entries, hentries, hvalue⟩ := exists_table htyped.declarations
  obtain ⟨_, hheader, -⟩ := run_header he
  obtain ⟨_, hcontents, -⟩ := run_contents he
  have hbelow : d.headerBelow c.root e.format = .ok lines := by rwa [hheader] at hlines
  have htext : d.textBelow c.root e.format = .ok (text lines entries) := by
    rw [Document.textBelow, hbelow, hformat]
    simp only [Format.javaScript, hentries]
    rfl
  have hnames : d.declarations.map (fun decl => decl.name) =
      (d.declarations.map fun decl => decl.name.keyText).map .string := by
    rw [List.map_map]
    refine List.map_congr_left fun decl hdecl => ?_
    obtain ⟨name, hname⟩ := (htyped.declarations decl hdecl).name
    rw [Function.comp_apply, hname, Json.keyText]
  refine ⟨String.ofList ((tableValue entries).write 0), fieldsOf d.declarations, _, ?_, ?_, hnames,
    map_fst_fieldsOf _, ?_, ?_⟩
  · rw [hcontents, htext, text, joinLines_append_singleton]
    simp only [String.append_assoc]
    rfl
  · rw [String.toList_ofList, hvalue]
    exact (isPlain_fieldsOf htyped.declarations).parse_write
  · intro before decl after name hdeclarations hname hlast
    rw [hdeclarations]
    refine lookup_fieldsOf hname hlast fun later hlater => htyped.declarations later ?_
    rw [hdeclarations]
    exact List.mem_append_right _ (List.mem_cons_of_mem _ hlater)
  · intro hnodup
    have hread := ofJson_documentDescription htyped (Document.eq_markAll_of_ofJson hpart) hnodup
    exact Schema.ofJson_eq_ofDocuments rfl (.cons hread .nil) (by simpa using htyped.name)

/-- Of two namespaces, one imports the other and has a member whose name needs escapes, one of them
a pair; the other declares a name twice. -/
theorem table_reads_back_twice : ∃ (data : Json) (s : Schema) (d d' : Document),
    data.DescribesSchema ∧ Schema.ofJson data = .ok s ∧
      (.string "x", d) ∈ s.documents ∧ (.string "y", d') ∈ s.documents ∧
      (∃ (value : String) (fields : List (String × Json)),
        ((contents Cache.shelf).run
          ({ root := .top }, { doc := some d, format := .javaScript })).1 =
            .ok ("var Y = require('./y');\n\nmodule.exports = " ++ value ++ ";\n") ∧
        Json.parse value.toList = .ok (.object fields) ∧ fields.map Prod.fst = ["T", "E"] ∧
        Schema.ofJson (.object [("namespaces", .list [documentDescription d fields])]) =
          .ok { documents := [(.string "x", d)] }) ∧
      ∃ (value : String) (fields : List (String × Json)),
        ((contents Cache.shelf).run
          ({ root := .top }, { doc := some d', format := .javaScript })).1 =
            .ok ("module.exports = " ++ value ++ ";\n") ∧
        Json.parse value.toList = .ok (.object fields) ∧ fields.map Prod.fst = ["T", "E"] ∧
        (Json.object fields).lookup "T" =
          .ok (.object [("base", .null), ("members", .list [])]) := by
  let member : Json := .object
    [("name", .string "é\"😀"), ("type", .string "U"), ("optional", .bool true)]
  let x : Json := .object [("name", .string "x"), ("imports", .object [("Y", .string "y")]),
    ("declarations", .list [.object [("name", .string "T"), ("base", .string "Y:T"),
      ("members", .list [member])], .object [("name", .string "E")]])]
  let y : Json := .object [("name", .string "y"), ("declarations", .list
    [.object [("name", .string "T"), ("base", .string "E")], .object [("name", .string "E")],
      .object [("name", .string "T")]])]
  let data : Json := .object [("namespaces", .list [x, y])]
  let t : Declaration := { name := .string "T", base := .string "Y:T", members :=
    [{ name := .string "é\"😀", typeRef := "U", optional := .bool true, array := .bool false }] }
  let d : Document := .markAll
    { name := .string "x"
      imports := [(.string "Y", .string "y")]
      declarations := [t, { name := .string "E" }] }
  let d' : Document := .markAll
    { name := .string "y"
      declarations :=
        [{ name := .string "T", base := .string "E" }, { name := .string "E" },
          { name := .string "T" }] }
  let s : Schema := { documents := [(.string "x", d), (.string "y", d')] }
  have hbare : ∀ name : String, (Json.object [("name", .string name)]).DescribesDeclaration :=
    fun name => ⟨⟨name, rfl⟩, Or.inl rfl, ⟨[], rfl, by simp⟩⟩
  have hdata : data.DescribesSchema := by
    refine ⟨[x, y], rfl, ?_⟩
    simp only [List.forall_mem_cons]
    refine ⟨⟨⟨"x", rfl⟩, ⟨_, rfl, by decide, by simp⟩, ⟨_, rfl, ?_⟩⟩,
      ⟨⟨"y", rfl⟩, ⟨[], rfl, by simp, by simp⟩, ⟨_, rfl, ?_⟩⟩, by simp⟩
    · simp only [List.forall_mem_cons]
      refine ⟨⟨⟨"T", rfl⟩, Or.inr ⟨"Y:T", rfl⟩, ⟨[member], rfl, ?_⟩⟩, hbare "E", by simp⟩
      simp only [List.forall_mem_singleton]
      exact ⟨⟨_, rfl⟩, ⟨"U", rfl⟩, ⟨true, rfl⟩, ⟨false, rfl⟩⟩
    · simp only [List.forall_mem_cons]
      exact ⟨⟨⟨"T", rfl⟩, Or.inr ⟨"E", rfl⟩, ⟨[], rfl, by simp⟩⟩, hbare "E", hbare "T", by simp⟩
  have hs : Schema.ofJson data = .ok s := rfl
  have hd : (.string "x", d) ∈ s.documents := List.mem_cons_self
  have hd' : (.string "y", d') ∈ s.documents := List.mem_cons_of_mem _ List.mem_cons_self
  have hlines : ((header Cache.shelf).run
      ({ root := .top }, { doc := some d, format := .javaScript })).1 =
        .ok ["var Y = require('./y');"] := Act.eq_ok_of_toOption (by decide +kernel)
  have hlines' : ((header Cache.shelf).run
      ({ root := .top }, { doc := some d', format := .javaScript })).1 = .ok [] :=
    Act.eq_ok_of_toOption (by decide +kernel)
  obtain ⟨value, fields, names, htext, hparse, hnames, hkeys, -, hback⟩ :=
    table_reads_back hdata hs hd ⟨rfl, fun _ hdir => by cases hdir⟩ rfl hlines
  obtain ⟨value', fields', names', htext', hparse', hnames', hkeys', hlast, -⟩ :=
    table_reads_back hdata hs hd' ⟨rfl, fun _ hdir => by cases hdir⟩ rfl hlines'
  have hinjective : Function.Injective (List.map Json.string) :=
    List.map_injective_iff.2 fun _ _ => Json.string.inj
  obtain rfl : ["T", "E"] = names := hinjective hnames
  obtain rfl : ["T", "E", "T"] = names' := hinjective hnames'
  refine ⟨data, s, d, d', hdata, hs, hd, hd',
    ⟨value, fields, htext, hparse, hkeys, hback (by decide)⟩,
    value', fields', htext', hparse', hkeys', ?_⟩
  exact hlast (d'.declarations.take 2) _ [] "T" rfl rfl (by simp)

end Exporter
end SchemaArtifacts
