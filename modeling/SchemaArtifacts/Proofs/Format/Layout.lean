import Mathlib.Data.List.Basic
import SchemaArtifacts.Format.TypeScript
import SchemaArtifacts.Proofs.Export.Steady
import SchemaArtifacts.Proofs.Model.Description

/-!
# The layout of a TypeScript module

A TypeScript module is put together from lines with an empty line behind each block, and what ends the
text is trimmed. No block ends in a line feed of its own, so nothing of a block is lost: the text is
the blocks, with a blank line between any two, and a line feed at the end.

## Main definitions

* `TypeScript.blocks` — the import lines, if there are any, and the lines of each declaration

## Main results

* `joinLines_flatMap_blocks` — an empty line behind each block is a blank line between blocks
* `TypeScript.joinLines_lines`, `TypeScript.dropTrailingBreaks_lines` — the text of a document before
  and after it is trimmed
* `TypeScript.text_eq_intercalate_blocks` — the text of a document
* `Document.textBy_typeScript_eq_ok_iff`, `Document.endsPlainly_of_headerBy` — what an exporter puts
  together from its import lines
-/

namespace SchemaArtifacts

/-! ## Lines -/

@[simp] theorem joinLines_singleton (line : String) : joinLines [line] = line :=
  String.intercalate_singleton

theorem joinLines_append {lines lines' : List String} (h : lines ≠ []) (h' : lines' ≠ []) :
    joinLines (lines ++ lines') = joinLines lines ++ "\n" ++ joinLines lines' :=
  String.intercalate_append_of_ne_nil h h'

theorem toList_joinLines_concat (lines : List String) (last : String) :
    (joinLines (lines ++ [last])).toList =
      (lines.flatMap fun line => line.toList ++ ['\n']) ++ last.toList := by
  induction lines with
  | nil => simp
  | cons line lines ih =>
    rw [List.cons_append, joinLines, String.intercalate_cons_of_ne_nil (by simp), ← joinLines,
      String.toList_append, String.toList_append, ih, List.flatMap_cons]
    simp only [List.append_assoc]
    rfl

/-- An empty line behind each block is a blank line between blocks. -/
theorem joinLines_flatMap_blocks {blocks : List (List String)} (h : ∀ b ∈ blocks, b ≠ [])
    (hne : blocks ≠ []) : joinLines (blocks.flatMap fun b => b ++ [""]) =
      "\n\n".intercalate (blocks.map joinLines) ++ "\n" := by
  induction blocks with
  | nil => exact absurd rfl hne
  | cons block blocks ih =>
    obtain ⟨hblock, hblocks⟩ := List.forall_mem_cons.1 h
    have hfirst : joinLines (block ++ [""]) = joinLines block ++ "\n" := by
      rw [joinLines_append hblock (by simp), joinLines_singleton, String.append_empty]
    by_cases hlast : blocks = []
    · subst hlast
      rw [List.flatMap_singleton, hfirst, List.map_singleton, String.intercalate_singleton]
    · have hrest : blocks.flatMap (fun b => b ++ [""]) ≠ [] := by
        obtain ⟨next, more, rfl⟩ := List.exists_cons_of_ne_nil hlast
        simp
      rw [List.flatMap_cons, joinLines_append (by simp) hrest, hfirst, ih hblocks hlast, List.map_cons,
        String.intercalate_cons_of_ne_nil (by simpa using hlast)]
      simp only [String.append_assoc]
      rfl

/-! ## Line feeds at the end -/

/-- A text ends in a character other than a line feed. -/
def EndsPlainly (s : String) : Prop := s.toList.getLast?.any (· ≠ '\n')

instance : DecidablePred EndsPlainly := fun s =>
  inferInstanceAs (Decidable (s.toList.getLast?.any (· ≠ '\n') = true))

theorem EndsPlainly.append {t : String} (h : EndsPlainly t) (s : String) :
    EndsPlainly (s ++ t) := by
  unfold EndsPlainly at h ⊢
  rw [String.toList_append, List.getLast?_append]
  cases hlast : t.toList.getLast? with
  | none =>
    rw [hlast] at h
    cases h
  | some c =>
    rw [hlast] at h
    exact h

theorem EndsPlainly.intercalate {last : String} (h : EndsPlainly last) (separator : String)
    (parts : List String) : EndsPlainly (separator.intercalate (parts ++ [last])) := by
  by_cases hparts : parts = []
  · subst hparts
    rw [List.nil_append, String.intercalate_singleton]
    exact h
  · rw [String.intercalate_append_of_ne_nil hparts (by simp), String.intercalate_singleton]
    exact h.append _

/-- A type reference with an alias is read from its first colon on. -/
theorem TypeRef.ofString_append {alias_ name : String} (h : ':' ∉ alias_.toList) :
    ofString (alias_ ++ ":" ++ name) = ⟨some alias_, name⟩ := by
  have hcut : Text.cut? ':' (alias_ ++ ":" ++ name).toList = some (alias_.toList, name.toList) :=
    Text.cut?_eq_some_iff.2 ⟨by simp, h⟩
  unfold ofString
  rw [hcut]
  simp

namespace TypeScript

/-- Only the line feed behind a text that does not end in one is trimmed. -/
theorem dropTrailingBreaks_append_break {s : String} (h : EndsPlainly s) :
    dropTrailingBreaks (s ++ "\n") = s := by
  obtain ⟨cs, rfl⟩ : ∃ cs, s = String.ofList cs := ⟨s.toList, by simp⟩
  rw [EndsPlainly, String.toList_ofList] at h
  rw [dropTrailingBreaks, String.toList_append, String.toList_ofList]
  obtain rfl | ⟨init, c, rfl⟩ := List.eq_nil_or_concat' cs
  · cases h
  · have hc : c ≠ '\n' := by simpa using h
    simp [Text.dropTrailing, hc]

/-! ## Types and blocks -/

/-- A type of another namespace, the built-in types apart, is written with a dot. -/
theorem typeText_append {alias_ name : String} (h : ':' ∉ alias_.toList)
    (hforeign : alias_ ≠ "Primitive") : typeText (alias_ ++ ":" ++ name) = alias_ ++ "." ++ name := by
  unfold typeText
  rw [TypeRef.ofString_append h]
  exact if_neg hforeign

/-- A built-in type is written by the type for it. -/
theorem typeText_builtin (name : String) : typeText ("Primitive" ++ ":" ++ name) = primitive name := by
  unfold typeText
  rw [TypeRef.ofString_append (by decide)]
  exact if_pos rfl

theorem head_of_baseRef? {d : Declaration} {ref : String} (h : d.baseRef? = some ref) :
    head d = "export interface " ++ d.name.display ++ (" extends " ++ typeText ref) := by
  unfold head
  rw [h]
  rfl

theorem head_of_baseRef?_none {d : Declaration} (h : d.baseRef? = none) :
    head d = "export interface " ++ d.name.display := by
  unfold head
  rw [h]
  exact String.append_empty

/-- The blocks of a document: its import lines, if there are any, and the lines of each declaration. -/
def blocks (header : List String) (d : Document) : List (List String) :=
  (if header.isEmpty then [] else [header]) ++ d.declarations.map declarationLines

theorem lines_eq_flatMap_blocks (header : List String) (d : Document) :
    lines header d = (blocks header d).flatMap fun b => b ++ [""] := by
  unfold lines blocks headerBlock
  rw [List.flatMap_append, List.flatMap_map]
  split <;> simp

theorem exists_declarationLines_eq (d : Declaration) :
    ∃ init last, declarationLines d = init ++ [last] ∧ EndsPlainly last := by
  unfold declarationLines
  split
  · exact ⟨[], _, rfl, EndsPlainly.append (by decide) _⟩
  · exact ⟨_, _, rfl, by decide⟩

section Blocks

variable {header : List String} {d : Document}

theorem mem_blocks_iff {block : List String} : block ∈ blocks header d ↔
    block = header ∧ header ≠ [] ∨ ∃ decl ∈ d.declarations, declarationLines decl = block := by
  unfold blocks
  rw [List.mem_append, List.mem_map]
  cases header <;> simp

theorem ne_nil_of_mem_blocks : ∀ block ∈ blocks header d, block ≠ [] := by
  intro block hmem
  obtain ⟨rfl, hne⟩ | ⟨decl, -, rfl⟩ := mem_blocks_iff.1 hmem
  · exact hne
  · obtain ⟨init, last, hlines, -⟩ := exists_declarationLines_eq decl
    rw [hlines]
    simp

/-- No block of a document ends in a line feed, if none of its import lines does. -/
theorem exists_last_line_of_mem_blocks (h : ∀ line ∈ header, EndsPlainly line) :
    ∀ block ∈ blocks header d, ∃ init last, block = init ++ [last] ∧ EndsPlainly last := by
  intro block hmem
  obtain ⟨rfl, hne⟩ | ⟨decl, -, rfl⟩ := mem_blocks_iff.1 hmem
  · obtain ⟨init, last, rfl⟩ := (List.eq_nil_or_concat' block).resolve_left hne
    exact ⟨init, last, rfl, h last (by simp)⟩
  · exact exists_declarationLines_eq decl

theorem endsPlainly_of_mem_blocks (h : ∀ line ∈ header, EndsPlainly line) :
    ∀ block ∈ blocks header d, EndsPlainly (joinLines block) := by
  intro block hmem
  obtain ⟨init, last, rfl, hlast⟩ := exists_last_line_of_mem_blocks h block hmem
  exact hlast.intercalate "\n" init

theorem blocks_eq_nil_iff : blocks header d = [] ↔ header = [] ∧ d.declarations = [] := by
  unfold blocks
  rw [List.append_eq_nil_iff, List.map_eq_nil_iff]
  cases header <;> simp

/-- Before it is trimmed, the text of a document that has blocks is these with a blank line between any
two, and a line feed at the end. -/
theorem joinLines_lines (hne : blocks header d ≠ []) : joinLines (lines header d) =
    "\n\n".intercalate ((blocks header d).map joinLines) ++ "\n" := by
  rw [lines_eq_flatMap_blocks]
  exact joinLines_flatMap_blocks ne_nil_of_mem_blocks hne

/-- The blocks end as the last of them does. -/
theorem endsPlainly_intercalate_blocks (h : ∀ line ∈ header, EndsPlainly line)
    (hne : blocks header d ≠ []) :
    EndsPlainly ("\n\n".intercalate ((blocks header d).map joinLines)) := by
  obtain ⟨init, last, hblocks⟩ := (List.eq_nil_or_concat' (blocks header d)).resolve_left hne
  have hlast : EndsPlainly (joinLines last) :=
    endsPlainly_of_mem_blocks h last (hblocks ▸ List.mem_concat_self)
  rw [hblocks, List.map_append, List.map_singleton]
  exact hlast.intercalate "\n\n" _

/-- Nothing of a block is trimmed. -/
theorem dropTrailingBreaks_lines (h : ∀ line ∈ header, EndsPlainly line) :
    dropTrailingBreaks (joinLines (lines header d)) =
      "\n\n".intercalate ((blocks header d).map joinLines) := by
  by_cases hne : blocks header d = []
  · rw [lines_eq_flatMap_blocks, hne]
    rfl
  · rw [joinLines_lines hne]
    exact dropTrailingBreaks_append_break (endsPlainly_intercalate_blocks h hne)

/-- The text of a document, if its import lines do not end in a line feed: the blocks, with a blank line
between any two, and a line feed at the end. -/
theorem text_eq_intercalate_blocks (h : ∀ line ∈ header, EndsPlainly line) (d : Document) :
    text header d = "\n\n".intercalate ((blocks header d).map joinLines) ++ "\n" := by
  rw [text, dropTrailingBreaks_lines h]

end Blocks

/-- An import line ends in a semicolon. -/
theorem endsPlainly_importLine (alias_ path : String) (full : Json) :
    EndsPlainly (importLine alias_ path full) :=
  EndsPlainly.append (by decide) _

end TypeScript

namespace Document

variable {place : Json → Except Failure String} {d : Document} {header : List String} {text : String}

theorem endsPlainly_of_headerBy (h : d.headerBy place .typeScript = .ok header) :
    ∀ line ∈ header, EndsPlainly line := by
  intro line hline
  obtain ⟨⟨alias_, full⟩, -, hentry⟩ := exists_of_mem_forall₂ (mapM_eq_ok_iff.1 h) hline
  obtain ⟨path, -, hentry⟩ := Result.bind_eq_ok.1 hentry
  cases hentry
  exact TypeScript.endsPlainly_importLine alias_ path full

/-- A TypeScript text is put together from the import lines, which may be missing for a reason. -/
theorem textBy_typeScript_eq_ok_iff : d.textBy place .typeScript = .ok text ↔
    ∃ header, d.headerBy place .typeScript = .ok header ∧ TypeScript.text header d = text := by
  have htext : d.textBy place .typeScript =
      (d.headerBy place .typeScript).map fun header => TypeScript.text header d := by
    unfold textBy
    cases d.headerBy place .typeScript <;> rfl
  rw [htext, Result.map_eq_ok]

end Document
end SchemaArtifacts
