import SchemaArtifacts.Cache.Store
import SchemaArtifacts.Proofs.Export.Steady
import SchemaArtifacts.Proofs.Format.Layout

/-!
# The text of an exporter and its import lines

An exporter counts the texts that it puts together, and nothing else that it does takes notice of the
count. So the import lines in its text are those that it finds when it is asked for them alone, on any
shelf and in any state. In TypeScript they end in a semicolon, whatever the names and paths in them, so
that the layout of the text follows.

## Main definitions

* `Act.Yields` — what is known of the results of an operation
* `Exporter.recount` — an exporter on its shelf, with another count of texts
* `Export.Overlooks` — an operation takes no notice of the count of texts

## Main results

* `Exporter.overlooks_header` — the import lines do not depend on the count
* `Exporter.run_contents_of_header` — the text, once there are import lines
* `Exporter.endsPlainly_of_run_header` — how an import line of a TypeScript text ends
* `Exporter.contents_eq_blocks` — the text is the blocks, with a blank line between any two
-/

namespace SchemaArtifacts

variable {σ α β : Type} {shelf : Shelf σ} {s : σ} {e : Exporter} {d : Document}

/-! ## What is known of results -/

/-- Whatever the state, an operation that does not fail comes to something that `fits`. -/
def Act.Yields (act : Act σ α) (fits : α → Prop) : Prop :=
  ∀ before a after, act.run before = (.ok a, after) → fits a

namespace Act

variable {fits : α → Prop} {fits' : β → Prop}

theorem yields_pure {a : α} (h : fits a) : Yields (pure a : Act σ α) fits := by
  rintro before _ after ⟨⟩
  exact h

theorem Yields.bind {act : Act σ α} {next : α → Act σ β} (h : act.Yields fits)
    (hn : ∀ a, fits a → (next a).Yields fits') : Yields (act >>= next) fits' := by
  intro before b after hrun
  obtain ⟨a, between, ha, hb⟩ := run_bind_eq_ok.1 hrun
  exact hn a (h before a between ha) between b after hb

theorem yields_mapM {f : α → Act σ β} (h : ∀ a, (f a).Yields fits') (as : List α) :
    Yields (as.mapM f) fun bs => ∀ b ∈ bs, fits' b := by
  induction as with
  | nil => exact yields_pure (by simp)
  | cons a as ih =>
    rw [List.mapM_cons]
    exact (h a).bind fun b hb => ih.bind fun bs hbs =>
      yields_pure (List.forall_mem_cons.2 ⟨hb, hbs⟩)

end Act

/-! ## What the count of texts has no part in -/

/-- An exporter on its shelf, with another count of texts. -/
def Exporter.recount (count : Nat) (whole : σ × Exporter) : σ × Exporter :=
  (whole.1, { whole.2 with renders := count })

open Exporter

/-- An operation takes no notice of the count of texts, and leaves it as it is. -/
def Export.Overlooks (act : Export σ α) : Prop :=
  ∀ count whole, act.run (recount count whole) = (act.run whole).map id (recount count)

namespace Export

theorem overlooks_pure (a : α) : Overlooks (pure a : Export σ α) := fun _ _ => rfl

theorem overlooks_throw (err : Failure) : Overlooks (throw err : Export σ α) := fun _ _ => rfl

theorem overlooks_onShelf (act : Act σ α) : Overlooks (onShelf act) := fun _ _ => rfl

theorem overlooks_modify {f : σ × Exporter → σ × Exporter}
    (h : ∀ count whole, f (recount count whole) = recount count (f whole)) :
    Overlooks (modify f : Export σ PUnit) := by
  intro count whole
  rw [Act.run_modify, Act.run_modify, h]
  rfl

theorem Overlooks.bind {act : Export σ α} {next : α → Export σ β} (h : act.Overlooks)
    (hn : ∀ a, (next a).Overlooks) : Overlooks (act >>= next) := by
  intro count whole
  rw [Act.run_bind, Act.run_bind, h]
  rcases act.run whole with ⟨err | a, whole'⟩
  · rfl
  · exact hn a count whole'

theorem overlooks_mapM {f : α → Export σ β} (h : ∀ a, (f a).Overlooks) (as : List α) :
    Overlooks (as.mapM f) := by
  induction as with
  | nil => exact overlooks_pure []
  | cons a as ih =>
    rw [List.mapM_cons]
    exact (h a).bind fun _ => ih.bind fun _ => overlooks_pure _

/-- The exporter itself may be asked for, if its count makes no difference to what follows. -/
theorem overlooks_self_bind {next : Exporter → Export σ α}
    (hcount : ∀ e count, next { e with renders := count } = next e)
    (h : ∀ e, (next e).Overlooks) : Overlooks (self >>= next) := by
  intro count whole
  change (next { whole.2 with renders := count }).run (recount count whole) = _
  rw [hcount, h]
  rfl

end Export

namespace Exporter
open Export

theorem overlooks_document (property : String) :
    Overlooks (document property : Export σ Document) := by
  refine overlooks_self_bind (fun _ _ => rfl) fun e => ?_
  cases e.doc with
  | some d => exact overlooks_pure d
  | none => exact overlooks_throw _

theorem overlooks_homeDirectory : Overlooks (homeDirectory shelf) := by
  refine overlooks_self_bind (fun _ _ => rfl) fun e => ?_
  cases e.home with
  | some dir => exact overlooks_pure dir
  | none =>
    refine (overlooks_document _).bind fun d => (overlooks_onShelf _).bind fun path => ?_
    exact (overlooks_modify fun _ _ => rfl).bind fun _ => overlooks_pure _

theorem overlooks_pathTo (name : Json) : Overlooks (pathTo shelf name) :=
  (overlooks_onShelf _).bind fun _ => overlooks_homeDirectory.bind fun _ => overlooks_pure _

/-- The import lines do not depend on how many texts were put together before. -/
theorem overlooks_header : Overlooks (header shelf) := by
  refine (overlooks_document _).bind fun d => overlooks_self_bind (fun _ _ => rfl) fun e => ?_
  have hline : ∀ entry : String × Json,
      Overlooks (do return e.format.importLine entry.1 (← pathTo shelf entry.2) entry.2) :=
    fun entry => (overlooks_pathTo entry.2).bind fun _ => overlooks_pure _
  exact overlooks_mapM hline d.foreignImports

/-! ## The text -/

section Text

variable {imports : List String}

/-- An exporter that finds import lines when it is asked for them puts its text together from
these. -/
theorem run_contents_of_header (hd : e.doc = some d) {text : List String → String}
    (htext : e.format.compose d = .ok text) (h : ((header shelf).run (s, e)).1 = .ok imports) :
    ((contents shelf).run (s, e)).1 = .ok (text imports) := by
  have hcounted : ((header shelf).run (recount (e.renders + 1) (s, e))).1 = .ok imports := by
    rw [overlooks_header]
    exact h
  have hdoc : ({ e with renders := e.renders + 1 } : Exporter).doc = some d := hd
  simp only [contents, self, Act.run_bind, Act.run_modify, Act.run_get, Act.run_pure,
    run_document_of_doc hdoc, htext, shaped, Act.run_ofExcept_ok]
  rw [recount] at hcounted
  rcases hrun : (header shelf).run (s, { e with renders := e.renders + 1 }) with ⟨result, whole⟩
  rw [hrun] at hcounted
  obtain rfl : result = .ok imports := hcounted
  rfl

theorem endsPlainly_of_run_header (hd : e.doc = some d) (hformat : e.format = .typeScript)
    (h : ((header shelf).run (s, e)).1 = .ok imports) : ∀ line ∈ imports, EndsPlainly line := by
  have hline : ∀ entry : String × Json, Act.Yields
      (do return TypeScript.importLine entry.1 (← pathTo shelf entry.2) entry.2 : Export σ String)
      EndsPlainly := by
    intro entry
    have hpath : Act.Yields (pathTo shelf entry.2) fun _ => True := fun _ _ _ _ => trivial
    exact hpath.bind fun path _ =>
      Act.yields_pure (TypeScript.endsPlainly_importLine entry.1 path entry.2)
  simp only [header, self, Act.run_bind, run_document_of_doc hd, Act.run_get, Act.run_pure,
    hformat] at h
  exact Act.yields_mapM hline d.foreignImports (s, e) imports _ (Prod.ext h rfl)

end Text

open TypeScript

/-- The text of an exporter of TypeScript that finds its import lines is their block, if there is an
import, and the blocks of the declarations in their order, with a blank line between any two and a line
feed at the end, whatever the names in them. What was trimmed to come to it is only the empty line behind
the last block: no block ends in a line feed. Only without imports and declarations the text is a single
line feed. -/
theorem contents_eq_blocks {imports : List String} (hd : e.doc = some d)
    (hformat : e.format = .typeScript) (h : ((header shelf).run (s, e)).1 = .ok imports) :
    ((contents shelf).run (s, e)).1 =
        .ok ("\n\n".intercalate ((blocks imports d).map joinLines) ++ "\n") ∧
      dropTrailingBreaks (joinLines (lines imports d)) =
        "\n\n".intercalate ((blocks imports d).map joinLines) ∧
      (blocks imports d ≠ [] → joinLines (lines imports d) =
        "\n\n".intercalate ((blocks imports d).map joinLines) ++ "\n") ∧
      (∀ block ∈ blocks imports d, EndsPlainly (joinLines block)) ∧
      (((contents shelf).run (s, e)).1 = .ok "\n" ↔ imports = [] ∧ d.declarations = []) := by
  have hplain := endsPlainly_of_run_header hd hformat h
  have hcompose : e.format.compose d = .ok fun imports => text imports d := by
    rw [hformat]
    rfl
  have hcontents := run_contents_of_header hd hcompose h
  rw [text_eq_intercalate_blocks hplain] at hcontents
  refine ⟨hcontents, dropTrailingBreaks_lines hplain, joinLines_lines,
    endsPlainly_of_mem_blocks hplain, ?_⟩
  rw [hcontents, ← blocks_eq_nil_iff]
  constructor
  · intro hfeed
    by_contra hne
    have hempty : "\n\n".intercalate ((blocks imports d).map joinLines) = "" := by
      simpa using Except.ok.inj hfeed
    have hends := endsPlainly_intercalate_blocks hplain hne
    rw [hempty] at hends
    exact absurd hends (by decide)
  · intro hnone
    rw [hnone]
    rfl

/-- Names that end in a line feed, of an import, of declarations, of a base and of a member. -/
theorem contents_eq_blocks_line_feeds : ∃ (c : Cache) (d : Document) (e : Exporter)
    (imports : List String), e.doc = some d ∧ e.format = .typeScript ∧
      d.declarations.map Declaration.name = [.string "X\n", .string "\n"] ∧
      ((header Cache.shelf).run (c, e)).1 = .ok imports ∧
      ((contents Cache.shelf).run (c, e)).1 = .ok ("import * as B from './b\n';\n\n" ++
        "export interface X\n extends B.Y\n {}\n\n" ++
        "export interface \n ".push '{' ++ "\n\tm\n: \n[];\n".push '}' ++ "\n") ∧
      ∀ block ∈ blocks imports d, EndsPlainly (joinLines block) := by
  let d : Document :=
    { name := .string "a", imports := [(.string "B", .string "b\n")], used := ["B"],
      declarations := [{ name := .string "X\n", base := .string "B:Y\n" },
        { name := .string "\n", members :=
          [{ name := .string "m\n", typeRef := "\n", array := .bool true }] }] }
  let c : Cache := { root := .top }
  let e : Exporter := { doc := some d, format := .typeScript }
  have hheader : ((header Cache.shelf).run (c, e)).1 = .ok ["import * as B from './b\n';"] :=
    Act.eq_ok_of_toOption (by decide +kernel)
  obtain ⟨htext, -, -, hplain, -⟩ := contents_eq_blocks (e := e) rfl rfl hheader
  have hblocks : "\n\n".intercalate ((blocks ["import * as B from './b\n';"] d).map joinLines) ++ "\n" =
      "import * as B from './b\n';\n\n" ++ "export interface X\n extends B.Y\n {}\n\n" ++
        "export interface \n ".push '{' ++ "\n\tm\n: \n[];\n".push '}' ++ "\n" := by
    decide +kernel
  rw [hblocks] at htext
  exact ⟨c, d, e, _, rfl, rfl, rfl, hheader, htext, hplain⟩

end Exporter
end SchemaArtifacts
