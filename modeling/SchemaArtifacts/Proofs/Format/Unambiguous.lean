import Mathlib.Data.List.Forall2
import SchemaArtifacts.Proofs.Export.Finding
import SchemaArtifacts.Proofs.Format.Layout
import SchemaArtifacts.Proofs.Model.Alike
import SchemaArtifacts.Proofs.Name.Url
import SchemaArtifacts.Proofs.Text.Lexeme

/-!
# TypeScript modules are read in one way

The text of a TypeScript module is put together without a thought of how to take it apart again. Still,
as long as names are words and types are words or pairs of words, each part ends where a character
stands that it cannot hold, and what is optional begins with a character that cannot stand there
otherwise. So a text tells the declarations that it was made of, up to the spelling of their types.

## Main definitions

* `TypeRef.IsSimple`, `Member.IsSimple`, `Declaration.IsSimple` — names are words, and types are words or
  pairs of words
* `Member.Agrees`, `Declaration.Agrees` — members and declarations that say the same

## Main results

* `TypeScript.memberLine_inj`, `TypeScript.block_inj` — a member and a declaration can be read from a text
  that begins with them
* `TypeScript.text_eq_iff` — two documents with the same import lines have the same text if and only if
  their declarations say the same
* `Exporter.contents_eq_iff` — the same of the texts that two exporters put together
-/

namespace SchemaArtifacts

/-! ## Documents of words -/

/-- A type reference is a word, or two words with a colon between them. -/
def TypeRef.IsSimple (ref : String) : Prop :=
  IsWord ref ∨ ∃ alias_ name, IsWord alias_ ∧ IsWord name ∧ ref = alias_ ++ ":" ++ name

/-- The name of a member is a word, its flags are flags, and its type is simple. -/
structure Member.IsSimple (m : Member) : Prop where
  name : ∃ word, m.name = .string word ∧ IsWord word
  optional : ∃ flag, m.optional = .bool flag
  array : ∃ flag, m.array = .bool flag
  typeRef : TypeRef.IsSimple m.typeRef

/-- The name of a declaration is a word, its base is simple if it has one, and so are its members. -/
structure Declaration.IsSimple (d : Declaration) : Prop where
  name : ∃ word, d.name = .string word ∧ IsWord word
  base : ∀ ref, d.baseRef? = some ref → TypeRef.IsSimple ref
  members : ∀ m ∈ d.members, m.IsSimple

open TypeScript (typeText)

/-- Two members have the same name and flags, and their types are written alike. -/
structure Member.Agrees (m m' : Member) : Prop where
  name : m.name = m'.name
  optional : m.optional = m'.optional
  array : m.array = m'.array
  typeText : typeText m.typeRef = typeText m'.typeRef

/-- Two declarations have the same name, neither a base or bases that are written alike, and members that
agree one by one. -/
structure Declaration.Agrees (d d' : Declaration) : Prop where
  name : d.name = d'.name
  base : d.baseRef?.map typeText = d'.baseRef?.map typeText
  members : List.Forall₂ Member.Agrees d.members d'.members

namespace TypeScript

/-! ## Where a part of a text ends -/

/-- A character that can stand in a type. -/
def IsTypeChar (c : Char) : Prop := IsWordChar c ∨ c = '.'

instance : DecidablePred IsTypeChar := fun c => inferInstanceAs (Decidable (IsWordChar c ∨ c = '.'))

section Parts

variable {a a' b b' yes no rest rest' : List Char} {flag flag' : Bool}

/-- What stands before the first character that cannot stand in a type. -/
theorem append_inj_of_typeChars (h : a ++ b = a' ++ b') (ha : ∀ c ∈ a, IsTypeChar c)
    (ha' : ∀ c ∈ a', IsTypeChar c) (hb : b.head?.any fun c => ¬ IsTypeChar c)
    (hb' : b'.head?.any fun c => ¬ IsTypeChar c) : a = a' ∧ b = b' :=
  Url.append_inj_of_stop h (fun c hc => by simpa using ha c hc) (fun c hc => by simpa using ha' c hc)
    (.inr hb) (.inr hb')

/-- Of two texts that begin differently, it can be seen which one was chosen. -/
theorem choice_inj {x y : Char} (hne : x ≠ y)
    (h : (if flag then x :: yes else y :: no) ++ rest = (if flag' then x :: yes else y :: no) ++ rest') :
    flag = flag' ∧ rest = rest' := by
  cases flag <;> cases flag'
  · exact ⟨rfl, List.append_cancel_left h⟩
  · exact absurd (List.cons.inj h).1.symm hne
  · exact absurd (List.cons.inj h).1 hne
  · exact ⟨rfl, List.append_cancel_left h⟩

end Parts

/-! ## Types -/

theorem isWord_primitive {name : String} : IsWord (primitive name) := by
  have hall : ∀ entry ∈ primitives, IsWord entry.2 := by decide +kernel
  unfold primitive
  cases hfound : primitives.lookup name with
  | none => decide +kernel
  | some value =>
    obtain ⟨before, after, hsplit, -⟩ := List.lookup_eq_some_iff.1 hfound
    exact hall (name, value) (by rw [hsplit]; simp)

/-- A simple type is written without spaces and punctuation marks other than dots. -/
theorem isTypeChar_of_mem_typeText {ref : String} (h : TypeRef.IsSimple ref) :
    ∀ c ∈ (typeText ref).toList, IsTypeChar c := by
  obtain hword | ⟨alias_, name, halias, hname, rfl⟩ := h
  · rw [typeText_local (hword.not_mem (by decide))]
    exact fun c hc => .inl (hword.chars c hc)
  · by_cases hbuiltin : alias_ = "Primitive"
    · rw [hbuiltin, typeText_builtin]
      exact fun c hc => .inl (isWord_primitive.chars c hc)
    · rw [typeText_append (halias.not_mem (by decide)) hbuiltin]
      intro c hc
      simp only [String.toList_append, List.mem_append] at hc
      obtain (hc | hc) | hc := hc
      · exact .inl (halias.chars c hc)
      · exact .inr (by simpa using hc)
      · exact .inl (hname.chars c hc)

/-! ## Members -/

section Members

variable {m m' : Member} {ms ms' : List Member} {rest rest' : List Char}

/-- The text of a member, from its name on. -/
theorem toList_memberLine {word : String} {optional array : Bool} (hname : m.name = .string word)
    (hoptional : m.optional = .bool optional) (harray : m.array = .bool array) :
    (memberLine m).toList = '\t' :: (word.toList ++ ((if optional then ['?', ':'] else [':']) ++
      ' ' :: ((typeText m.typeRef).toList ++ (if array then ['[', ']', ';'] else [';'])))) := by
  rw [memberLine, hname, hoptional, harray]
  cases optional <;> cases array <;> simp [Json.isTruthy]

theorem toList_memberLine_eq_cons (m : Member) :
    (memberLine m).toList = '\t' :: (memberLine m).toList.tail := by
  simp only [memberLine, String.toList_append, List.append_assoc]
  rfl

/-- A member can be read from a text that begins with it. -/
theorem memberLine_inj (hm : m.IsSimple) (hm' : m'.IsSimple)
    (h : (memberLine m).toList ++ rest = (memberLine m').toList ++ rest') :
    m.Agrees m' ∧ rest = rest' := by
  obtain ⟨⟨word, hname, hword⟩, ⟨optional, hoptional⟩, ⟨array, harray⟩, htype⟩ := hm
  obtain ⟨⟨word', hname', hword'⟩, ⟨optional', hoptional'⟩, ⟨array', harray'⟩, htype'⟩ := hm'
  rw [toList_memberLine hname hoptional harray, toList_memberLine hname' hoptional' harray'] at h
  simp only [List.cons_append, List.append_assoc, List.cons.injEq, true_and] at h
  obtain ⟨hsame, hmark⟩ := append_inj_of_typeChars h (fun c hc => .inl (hword.chars c hc))
    (fun c hc => .inl (hword'.chars c hc)) (by cases optional <;> rfl) (by cases optional' <;> rfl)
  obtain ⟨hflag, htypes⟩ := choice_inj (by decide) hmark
  obtain ⟨hsameType, hbrackets⟩ := append_inj_of_typeChars (List.cons.inj htypes).2
    (isTypeChar_of_mem_typeText htype) (isTypeChar_of_mem_typeText htype')
    (by cases array <;> rfl) (by cases array' <;> rfl)
  obtain ⟨hlist, hrest⟩ := choice_inj (by decide) hbrackets
  refine ⟨⟨?_, ?_, ?_, String.toList_injective hsameType⟩, hrest⟩
  · rw [hname, hname', String.toList_injective hsame]
  · rw [hoptional, hoptional', hflag]
  · rw [harray, harray', hlist]

/-- Members, each on a line of its own, can be read up to a brace. -/
theorem memberLines_inj (hms : ∀ m ∈ ms, m.IsSimple) (hms' : ∀ m ∈ ms', m.IsSimple)
    (h : (ms.flatMap fun m => (memberLine m).toList ++ ['\n']) ++ '}' :: rest =
      (ms'.flatMap fun m => (memberLine m).toList ++ ['\n']) ++ '}' :: rest') :
    List.Forall₂ Member.Agrees ms ms' ∧ rest = rest' := by
  -- By both lists at once: a line begins with a tab and the end with a brace, so they end together.
  induction ms generalizing ms' with
  | nil =>
    cases ms' with
    | nil => exact ⟨.nil, (List.cons.inj h).2⟩
    | cons m' ms' =>
      rw [List.flatMap_cons, toList_memberLine_eq_cons m'] at h
      exact absurd (List.cons.inj h).1 (by decide)
  | cons m ms ih =>
    obtain ⟨hm, hms⟩ := List.forall_mem_cons.1 hms
    cases ms' with
    | nil =>
      rw [List.flatMap_cons, toList_memberLine_eq_cons m] at h
      exact absurd (List.cons.inj h).1 (by decide)
    | cons m' ms' =>
      obtain ⟨hm', hms'⟩ := List.forall_mem_cons.1 hms'
      rw [List.flatMap_cons, List.flatMap_cons] at h
      simp only [List.append_assoc] at h
      obtain ⟨hagrees, h⟩ := memberLine_inj hm hm' h
      obtain ⟨hrest, h⟩ := ih hms hms' (List.cons.inj h).2
      exact ⟨.cons hagrees hrest, h⟩

end Members

/-! ## Declarations -/

section Declarations

variable {d d' : Declaration} {ds ds' : List Declaration} {rest rest' : List Char}

/-- The text of a declaration. -/
def blockText (d : Declaration) : List Char := (joinLines (declarationLines d)).toList

/-- The text of a declaration behind its opening brace. -/
def bodyText (d : Declaration) : List Char :=
  if d.members.isEmpty then ['}']
  else '\n' :: ((d.members.flatMap fun m => (memberLine m).toList ++ ['\n']) ++ ['}'])

/-- The text of a declaration behind its name. -/
def extendsText (base : Option String) : List Char :=
  base.elim [] fun text => " extends ".toList ++ text.toList

theorem blockText_eq (d : Declaration) : blockText d = "export interface ".toList ++
    (d.name.display.toList ++ (extendsText (d.baseRef?.map typeText) ++
      ([' ', '{'] ++ bodyText d))) := by
  have hhead : (head d).toList = "export interface ".toList ++ (d.name.display.toList ++
      extendsText (d.baseRef?.map typeText)) := by
    cases hbase : d.baseRef? with
    | none =>
      rw [head_of_baseRef?_none hbase, String.toList_append]
      simp [extendsText]
    | some ref =>
      rw [head_of_baseRef? hbase, String.toList_append, String.toList_append, String.toList_append,
        List.append_assoc]
      rfl
  unfold blockText bodyText declarationLines
  split
  · rw [joinLines_singleton, String.toList_append, hhead]
    simp only [List.append_assoc]
    rfl
  · rw [toList_joinLines_concat, List.flatMap_cons, List.flatMap_map, String.toList_append, hhead]
    simp only [List.append_assoc]
    rfl

/-- A base, if there is one, can be read up to a brace. -/
theorem extendsText_inj {base base' : Option String} {rest rest' : List Char}
    (hbase : ∀ text ∈ base, ∀ c ∈ text.toList, IsTypeChar c)
    (hbase' : ∀ text ∈ base', ∀ c ∈ text.toList, IsTypeChar c)
    (h : extendsText base ++ ([' ', '{'] ++ rest) = extendsText base' ++ ([' ', '{'] ++ rest')) :
    base = base' ∧ rest = rest' := by
  cases base with
  | none =>
    cases base' with
    | none => exact ⟨rfl, by simpa [extendsText] using h⟩
    | some text' => simp [extendsText] at h
  | some text =>
    cases base' with
    | none => simp [extendsText] at h
    | some text' =>
      simp only [extendsText, Option.elim_some, List.append_assoc] at h
      obtain ⟨hsame, h⟩ := append_inj_of_typeChars (List.append_cancel_left h) (hbase text rfl)
        (hbase' text' rfl) rfl rfl
      exact ⟨congrArg some (String.toList_injective hsame), List.append_cancel_left h⟩

/-- The members of a declaration can be read from a text that begins with them. -/
theorem bodyText_inj (hd : d.IsSimple) (hd' : d'.IsSimple)
    (h : bodyText d ++ rest = bodyText d' ++ rest') :
    List.Forall₂ Member.Agrees d.members d'.members ∧ rest = rest' := by
  have hmembers := hd.members
  have hmembers' := hd'.members
  unfold bodyText at h
  generalize d.members = ms at h hmembers ⊢
  generalize d'.members = ms' at h hmembers' ⊢
  cases ms with
  | nil =>
    cases ms' with
    | nil => exact ⟨.nil, (List.cons.inj h).2⟩
    | cons m' ms' => exact absurd (List.cons.inj h).1 (by decide)
  | cons m ms =>
    cases ms' with
    | nil => exact absurd (List.cons.inj h).1 (by decide)
    | cons m' ms' =>
      refine memberLines_inj hmembers hmembers' ?_
      rw [List.append_cons, List.append_cons _ _ rest']
      exact (List.cons.inj h).2

/-- A declaration can be read from a text that begins with it. -/
theorem block_inj (hd : d.IsSimple) (hd' : d'.IsSimple)
    (h : blockText d ++ rest = blockText d' ++ rest') : d.Agrees d' ∧ rest = rest' := by
  obtain ⟨word, hname, hword⟩ := hd.name
  obtain ⟨word', hname', hword'⟩ := hd'.name
  have hbase : ∀ {d : Declaration}, d.IsSimple →
      ∀ text ∈ d.baseRef?.map typeText, ∀ c ∈ text.toList, IsTypeChar c := by
    intro d hd text htext
    obtain ⟨ref, href, rfl⟩ := Option.map_eq_some_iff.1 htext
    exact isTypeChar_of_mem_typeText (hd.base ref href)
  have hspace : ∀ (base : Option String) (more : List Char),
      ((extendsText base ++ ([' ', '{'] ++ more)).head?.any fun c => ¬ IsTypeChar c) = true := by
    intro base more
    cases base <;> rfl
  rw [blockText_eq, blockText_eq, hname, hname'] at h
  simp only [List.append_assoc] at h
  obtain ⟨hsame, h⟩ := append_inj_of_typeChars (List.append_cancel_left h)
    (fun c hc => .inl (hword.chars c hc)) (fun c hc => .inl (hword'.chars c hc)) (hspace _ _)
    (hspace _ _)
  obtain ⟨hsameBase, h⟩ := extendsText_inj (hbase hd) (hbase hd') h
  obtain ⟨hmembers, h⟩ := bodyText_inj hd hd' h
  refine ⟨⟨?_, hsameBase, hmembers⟩, h⟩
  rw [hname, hname', show word = word' from String.toList_injective hsame]

/-- Blocks, each behind a blank line, up to the end of a text. -/
def behindBlanks (blocks : List (List Char)) : List Char :=
  (blocks.flatMap fun block => '\n' :: '\n' :: block) ++ ['\n']

theorem behindBlanks_cons (block : List Char) (blocks : List (List Char)) :
    behindBlanks (block :: blocks) = '\n' :: '\n' :: (block ++ behindBlanks blocks) := by
  simp [behindBlanks]

/-- Declarations, each behind a blank line, can be read up to the end of the text. -/
theorem blocks_inj (hds : ∀ d ∈ ds, d.IsSimple) (hds' : ∀ d ∈ ds', d.IsSimple)
    (h : behindBlanks (ds.map blockText) = behindBlanks (ds'.map blockText)) :
    List.Forall₂ Declaration.Agrees ds ds' := by
  induction ds generalizing ds' with
  | nil =>
    cases ds' with
    | nil => exact .nil
    | cons d' ds' => cases (List.cons.inj h).2
  | cons d ds ih =>
    obtain ⟨hd, hds⟩ := List.forall_mem_cons.1 hds
    cases ds' with
    | nil => cases (List.cons.inj h).2
    | cons d' ds' =>
      obtain ⟨hd', hds'⟩ := List.forall_mem_cons.1 hds'
      simp only [List.map_cons, behindBlanks_cons, List.cons.injEq, true_and] at h
      obtain ⟨hagrees, h⟩ := block_inj hd hd' h
      exact .cons hagrees (ih hds hds' h)

end Declarations

/-! ## Documents -/

section Documents

variable {header : List String} {d d' : Document}

theorem toList_intercalate_cons (separator first : String) (parts : List String) :
    (separator.intercalate (first :: parts)).toList =
      first.toList ++ parts.flatMap fun part => separator.toList ++ part.toList := by
  induction parts generalizing first with
  | nil => simp
  | cons part parts ih =>
    rw [String.intercalate_cons_cons, String.toList_append, String.toList_append, ih,
      List.flatMap_cons, List.append_assoc, List.append_assoc]

/-- The text of a document that has import lines. -/
theorem toList_text_of_ne_nil (h : ∀ line ∈ header, EndsPlainly line) (hne : header ≠ []) :
    (text header d).toList =
      (joinLines header).toList ++ behindBlanks (d.declarations.map blockText) := by
  have hblocks : blocks header d = header :: d.declarations.map declarationLines := by
    rw [blocks, if_neg (by simpa using hne)]
    rfl
  rw [text_eq_intercalate_blocks h, hblocks, List.map_cons, String.toList_append,
    toList_intercalate_cons, List.map_map, List.flatMap_map, List.append_assoc, behindBlanks,
    List.flatMap_map]
  rfl

/-- The text of a document without import lines. -/
theorem toList_text_nil : (text [] d).toList =
    match d.declarations.map blockText with
    | [] => ['\n']
    | first :: rest => first ++ behindBlanks rest := by
  have hblocks : blocks [] d = d.declarations.map declarationLines := rfl
  rw [text_eq_intercalate_blocks (by simp), hblocks]
  cases d.declarations with
  | nil => rfl
  | cons first rest =>
    change _ = blockText first ++ behindBlanks (rest.map blockText)
    rw [List.map_cons, List.map_cons, String.toList_append, toList_intercalate_cons, List.map_map,
      List.flatMap_map, List.append_assoc, behindBlanks, List.flatMap_map]
    rfl

/-- The declarations can be read from the text. -/
theorem agrees_of_text_eq (h : ∀ line ∈ header, EndsPlainly line)
    (hd : ∀ decl ∈ d.declarations, decl.IsSimple) (hd' : ∀ decl ∈ d'.declarations, decl.IsSimple)
    (htext : text header d = text header d') :
    List.Forall₂ Declaration.Agrees d.declarations d'.declarations := by
  have htext := congrArg String.toList htext
  -- Below a header every block has an empty line before it. Without one the first block has none,
  -- and is read apart.
  by_cases hheader : header = []
  · subst hheader
    rw [toList_text_nil, toList_text_nil] at htext
    have hfirst : ∀ (decl : Declaration) (rest : List Char), ['\n'] ≠ blockText decl ++ rest := by
      intro decl rest heq
      rw [blockText_eq] at heq
      exact absurd (List.cons.inj heq).1 (by decide)
    generalize d.declarations = ds at hd htext ⊢
    generalize d'.declarations = ds' at hd' htext ⊢
    cases ds with
    | nil =>
      cases ds' with
      | nil => exact .nil
      | cons first' rest' => exact absurd htext (hfirst first' _)
    | cons first rest =>
      obtain ⟨hsimple, hrest⟩ := List.forall_mem_cons.1 hd
      cases ds' with
      | nil => exact absurd htext.symm (hfirst first _)
      | cons first' rest' =>
        obtain ⟨hsimple', hrest'⟩ := List.forall_mem_cons.1 hd'
        obtain ⟨hagrees, htext⟩ := block_inj hsimple hsimple' htext
        exact .cons hagrees (blocks_inj hrest hrest' htext)
  · rw [toList_text_of_ne_nil h hheader, toList_text_of_ne_nil h hheader] at htext
    exact blocks_inj hd hd' (List.append_cancel_left htext)

/-- What a function makes of two lists is the same if it is so one by one. -/
theorem map_eq_of_forall₂ {α β : Type} {R : α → α → Prop} {f : α → β}
    (hf : ∀ a b, R a b → f a = f b) {as bs : List α} (h : List.Forall₂ R as bs) :
    as.map f = bs.map f := by
  induction h with
  | nil => rfl
  | cons hab _ ih => rw [List.map_cons, List.map_cons, hf _ _ hab, ih]

/-- Declarations that say the same are written alike. -/
theorem blockText_congr {d d' : Declaration} (h : d.Agrees d') : blockText d = blockText d' := by
  have hlines : d.members.map memberLine = d'.members.map memberLine :=
    map_eq_of_forall₂ (fun _ _ hm => by
      rw [memberLine, hm.name, hm.optional, hm.array, hm.typeText, memberLine]) h.members
  have hbody : ∀ d : Declaration, bodyText d =
      if (d.members.map memberLine).isEmpty then ['}']
      else '\n' :: (((d.members.map memberLine).flatMap fun line => line.toList ++ ['\n']) ++
        ['}']) := by
    intro d
    rw [List.isEmpty_map, List.flatMap_map]
    rfl
  rw [blockText_eq, blockText_eq, h.name, h.base, hbody d, hbody d', hlines]

/-- Two documents with the same import lines have the same text if and only if their declarations say
the same. -/
theorem text_eq_iff (h : ∀ line ∈ header, EndsPlainly line)
    (hd : ∀ decl ∈ d.declarations, decl.IsSimple) (hd' : ∀ decl ∈ d'.declarations, decl.IsSimple) :
    text header d = text header d' ↔
      List.Forall₂ Declaration.Agrees d.declarations d'.declarations := by
  refine ⟨agrees_of_text_eq h hd hd', fun hagrees => String.toList_injective ?_⟩
  have hblocks := map_eq_of_forall₂ (fun _ _ h => blockText_congr h) hagrees
  by_cases hheader : header = []
  · rw [hheader, toList_text_nil, toList_text_nil, hblocks]
  · rw [toList_text_of_ne_nil h hheader, toList_text_of_ne_nil h hheader, hblocks]

end Documents

end TypeScript

namespace Exporter

open TypeScript

variable {σ : Type} {shelf : Shelf σ} {fits : σ → Prop} {place : Json → Except Failure String}
  {d d' : Document} {e e' : Exporter} {state state' : σ} {text text' : String}

/-- Two documents of one name, with the same imports and aliases in use, whose names are words and whose
types are words or pairs of words: if exporters put together their TypeScript texts, the texts are equal
if and only if the documents have as many declarations, one by one with the same name, with no base or
with bases that are written alike, and with members of the same names and flags, in the same order, whose
types are written alike. -/
theorem contents_eq_iff (hshelf : shelf.IsSteady fits place) (hstate : fits state)
    (hstate' : fits state') (he : e.Knows place d) (he' : e'.Knows place d')
    (hformat : e.format = .typeScript) (hformat' : e'.format = .typeScript)
    (hsame : d.toNamespace.Alike d'.toNamespace)
    (hd : ∀ decl ∈ d.declarations, decl.IsSimple) (hd' : ∀ decl ∈ d'.declarations, decl.IsSimple)
    (htext : ((contents shelf).run (state, e)).1 = .ok text)
    (htext' : ((contents shelf).run (state', e')).1 = .ok text') :
    text = text' ↔ List.Forall₂ Declaration.Agrees d.declarations d'.declarations := by
  obtain ⟨_, _, hrun, -⟩ := run_contents_steady hshelf hstate he
  obtain ⟨_, _, hrun', -⟩ := run_contents_steady hshelf hstate' he'
  rw [hrun, hformat] at htext
  rw [hrun', hformat'] at htext'
  have hheaders : d'.headerBy place .typeScript = d.headerBy place .typeScript := by
    have hspecifier : d'.specifierBy place = d.specifierBy place := by
      funext name
      rw [Document.specifierBy, Document.homeBy, hsame.name, Document.specifierBy, Document.homeBy]
    rw [Document.headerBy, hsame.foreignImports, hspecifier, Document.headerBy]
  obtain ⟨header, hheader, rfl⟩ := Document.textBy_typeScript_eq_ok_iff.1 htext
  obtain ⟨header', hheader', rfl⟩ := Document.textBy_typeScript_eq_ok_iff.1 htext'
  obtain rfl : header' = header := Except.ok.inj (by rw [← hheader', ← hheader, hheaders])
  exact text_eq_iff (Document.endsPlainly_of_headerBy hheader) hd hd'

/-- Two built-in types are written alike, and a base that is empty is none. -/
theorem contents_eq_iff_builtin : ∃ (c : Cache) (d d' : Document) (e e' : Exporter) (text : String),
    e.doc = some d ∧ e'.doc = some d' ∧ d.declarations.length = 2 ∧
      ((contents Cache.shelf).run (c, e)).1 = .ok text ∧
      ((contents Cache.shelf).run (c, e')).1 = .ok text ∧
      text = "import * as B from './b';\n\nexport interface X extends B.Y {}\n\n" ++
        "export interface Z ".push '{' ++ "\n\tcount?: number;\n\tall: X[];\n".push '}' ++ "\n" ∧
      List.Forall₂ Declaration.Agrees d.declarations d'.declarations := by
  let n : Namespace := { name := .string "a", imports := [(.string "B", .string "b")], used := ["B"] }
  let declarations (base : Json) (number : String) : List Declaration :=
    [{ name := .string "X", base := .string "B:Y" },
      { name := .string "Z", base, members :=
        [{ name := .string "count", typeRef := "Primitive:" ++ number, optional := .bool true },
          { name := .string "all", typeRef := "X", array := .bool true }] }]
  let d : Document := { n with declarations := declarations .null "integer" }
  let d' : Document := { n with declarations := declarations (.string "") "double" }
  let c : Cache := { root := .top }
  let e : Exporter := { doc := some d, format := .typeScript }
  let e' : Exporter := { doc := some d', format := .typeScript }
  have hsimple : ∀ (base : Json) (number : String), (base = .null ∨ base = .string "") →
      IsWord number → ∀ decl ∈ declarations base number, decl.IsSimple := by
    intro base number hbase hnumber
    have hword : ∀ word ∈ ["X", "B", "Y", "Z", "count", "all", "Primitive"], IsWord word := by
      decide +kernel
    have hnone : ∀ d : Declaration, d.base = base → d.baseRef? = none := by
      rintro d rfl
      unfold Declaration.baseRef?
      obtain h | h := hbase <;> simp [h]
    simp only [declarations, List.forall_mem_cons, List.not_mem_nil, false_imp_iff, implies_true,
      and_true]
    refine ⟨⟨⟨"X", rfl, hword _ (by decide)⟩, ?_, by simp⟩,
      ⟨⟨"Z", rfl, hword _ (by decide)⟩, ?_, ?_⟩⟩
    · rintro _ ⟨⟩
      exact .inr ⟨"B", "Y", hword _ (by decide), hword _ (by decide), rfl⟩
    · intro ref href
      rw [hnone _ rfl] at href
      cases href
    · simp only [List.forall_mem_cons, List.not_mem_nil, false_imp_iff, implies_true, and_true]
      refine ⟨⟨⟨"count", rfl, hword _ (by decide)⟩, ⟨true, rfl⟩, ⟨false, rfl⟩, ?_⟩,
        ⟨⟨"all", rfl, hword _ (by decide)⟩, ⟨false, rfl⟩, ⟨true, rfl⟩, ?_⟩⟩
      · exact .inr ⟨"Primitive", number, hword _ (by decide), hnumber, rfl⟩
      · exact .inl (hword _ (by decide))
  let text := "import * as B from './b';\n\nexport interface X extends B.Y {}\n\n" ++
    "export interface Z ".push '{' ++ "\n\tcount?: number;\n\tall: X[];\n".push '}' ++ "\n"
  have htext : ((contents Cache.shelf).run (c, e)).1 = .ok text :=
    Act.eq_ok_of_toOption (by decide +kernel)
  have htext' : ((contents Cache.shelf).run (c, e')).1 = .ok text :=
    Act.eq_ok_of_toOption (by decide +kernel)
  have hagrees := (contents_eq_iff (isSteady_shelf c) rfl rfl (knows_of_fresh (e := e) rfl rfl)
    (knows_of_fresh (e := e') rfl rfl) rfl rfl ⟨rfl, fun _ => rfl, .refl _⟩
    (hsimple .null "integer" (.inl rfl) (by decide +kernel))
    (hsimple (.string "") "double" (.inr rfl) (by decide +kernel)) htext htext').1 rfl
  exact ⟨c, d, d', e, e', text, rfl, rfl, rfl, htext, htext', rfl, hagrees⟩

end Exporter
end SchemaArtifacts
