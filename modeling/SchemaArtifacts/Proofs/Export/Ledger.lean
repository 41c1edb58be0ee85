import SchemaArtifacts.Export.Rehearsal
import SchemaArtifacts.Format.TypeScript
import SchemaArtifacts.Proofs.Cache.Work
import SchemaArtifacts.Proofs.Export.Visits

/-!
# The account of exporters that are called side by side

Each call of an exporter answers for what happens in its passages: the texts that are put together
there, what the shelf records, and the names that are looked up. However the calls of several exporters
overlap, a call that writes is one text and one record, and no other call records anything. So the record
grows by one with each call that writes, and an exporter looks up its own path until it has it, and
then never again.

## Main definitions

* `Workshop.Call.renders`, `Workshop.Call.records`, `Workshop.Call.derived` — what a call answers for
* `Workshop.Call.Tally` — what there is to answer for when a call has come so far
* `Workshop.total` — what the calls of an exporter add up to
* `Workshop.IsBalanced` — the account of a workshop

## Main results

* `Workshop.IsBalanced.next`, `Workshop.IsBalanced.after` — a move, and any number of them, keep the
  account balanced
* `Workshop.calls_account` — the account of every workshop of fresh exporters
-/

namespace SchemaArtifacts

variable {σ ι α : Type}

/-- A rehearsal records what is stored. -/
theorem Rehearsal.records_shelf : shelf.Records writes cached where
  locate name r := by
    simp only [shelf, locate, Act.run_bind, Act.run_modify]
    cases name.asKey with
    | error err => exact ⟨rfl, rfl⟩
    | ok key =>
      simp only [Act.run_ofExcept_ok, Act.run_get]
      split <;> exact ⟨rfl, rfl⟩
  isCached _ r := .refl r
  stored {a text r r'} hrun := by
    rcases hfault : r.fault with _ | fault
    all_goals
      simp only [shelf, store, Act.run_bind, Act.run_get, hfault] at hrun
      cases hrun
    rfl
  refused {a text r r' err} hrun := by
    rcases hfault : r.fault with _ | fault
    all_goals
      simp only [shelf, store, Act.run_bind, Act.run_get, hfault] at hrun
      cases hrun
    exact .refl r

namespace Workshop

/-! ## What a call answers for -/

namespace Passage

/-- How many texts are put together in a passage. -/
def renders (p : Passage σ) : Nat := p.after.2.renders - p.before.2.renders

/-- What is recorded in a passage. -/
def records (writes : σ → List (Address × String)) (p : Passage σ) : List (Address × String) :=
  (writes p.after.1).drop (writes p.before.1).length

/-- The names whose paths are given in a passage. -/
def lookups (given : σ → List Json) (p : Passage σ) : List Json :=
  (given p.after.1).drop (given p.before.1).length

variable {p : Passage σ} {writes : σ → List (Address × String)} {given : σ → List Json}

theorem renders_of_eq_add {n : Nat} (h : p.after.2.renders = p.before.2.renders + n) :
    p.renders = n := by
  rw [renders, h, Nat.add_sub_cancel_left]

theorem records_of_eq_append {more : List (Address × String)}
    (h : writes p.after.1 = writes p.before.1 ++ more) : p.records writes = more := by
  rw [records, h, List.drop_left]

theorem records_of_eq (h : writes p.after.1 = writes p.before.1) : p.records writes = [] :=
  records_of_eq_append (by rw [h, List.append_nil])

theorem lookups_of_eq_append {more : List Json} (h : given p.after.1 = given p.before.1 ++ more) :
    p.lookups given = more := by
  rw [lookups, h, List.drop_left]

end Passage

namespace Call

/-- How many texts a call puts together. -/
def renders (c : Call σ ι) : Nat := (c.passages.map Passage.renders).sum

/-- What a call records. -/
def records (writes : σ → List (Address × String)) (c : Call σ ι) : List (Address × String) :=
  c.passages.flatMap (Passage.records writes)

/-- The names that a call looks up for the directory of its exporter: those of its first passage. -/
def derived (given : σ → List Json) (c : Call σ ι) : List Json :=
  c.passages.head?.elim [] (Passage.lookups given)

/-- A call changes nothing of what the shelf holds. -/
def IsQuiet (held : σ → α) (c : Call σ ι) : Prop :=
  ∀ p ∈ c.passages, held p.after.1 = held p.before.1

/-- In a passage of a call, its text is put together. -/
def HasRendered (shelf : Shelf σ) (text : String) (c : Call σ ι) : Prop :=
  ∃ p ∈ c.passages, (Exporter.contents shelf).run p.before = (.ok text, p.after)

/-- A call after one more passage. -/
def extend (c : Call σ ι) (stage : Stage) (p : Passage σ) : Call σ ι :=
  { c with stage, passages := c.passages ++ [p] }

section Extend

variable {c : Call σ ι} {stage : Stage} {p : Passage σ} {writes : σ → List (Address × String)}
  {held : σ → α} {given : σ → List Json} {shelf : Shelf σ} {text : String}

@[simp] theorem renders_extend : (c.extend stage p).renders = c.renders + p.renders := by
  simp [extend, renders]

@[simp] theorem records_extend :
    (c.extend stage p).records writes = c.records writes ++ p.records writes := by
  simp [extend, records]

theorem derived_extend (h : c.passages ≠ []) : (c.extend stage p).derived given = c.derived given := by
  rw [derived, extend, List.head?_append_of_ne_nil _ h, derived]

theorem IsQuiet.extend (h : c.IsQuiet held) (hp : held p.after.1 = held p.before.1) :
    (c.extend stage p).IsQuiet held := by
  intro q hq
  obtain hq | hq := List.mem_append.1 hq
  · exact h q hq
  · rw [List.mem_singleton.1 hq]
    exact hp

theorem HasRendered.extend (h : c.HasRendered shelf text) :
    (c.extend stage p).HasRendered shelf text := by
  obtain ⟨q, hq, hrun⟩ := h
  exact ⟨q, List.mem_append_left _ hq, hrun⟩

end Extend

end Call

section Total

variable [DecidableEq ι] {calls : List (Call σ ι)} {c c' : Call σ ι} {i : ι} {f : Call σ ι → Nat}

/-- What the calls of an exporter add up to. -/
def total (calls : List (Call σ ι)) (i : ι) (f : Call σ ι → Nat) : Nat :=
  (calls.map fun c => if c.exporter = i then f c else 0).sum

theorem total_concat :
    total (calls ++ [c]) i f = total calls i f + if c.exporter = i then f c else 0 := by
  rw [total, List.map_append, List.sum_append, List.map_singleton, List.sum_singleton, total]

/-- When one call counts for more, so do the calls of its exporter. -/
theorem total_set {k n : Nat} (hk : calls[k]? = some c) (hsame : c'.exporter = c.exporter)
    (hf : f c' = f c + n) (i : ι) :
    total (calls.set k c') i f = total calls i f + if c.exporter = i then n else 0 := by
  have hsum := sum_map_modify (fun _ => c') (fun c => if c.exporter = i then f c else 0) hk
  rw [← List.set_eq_modify] at hsum
  rw [total, total]
  by_cases hi : c.exporter = i
  · simp only [hsame, hf, if_pos hi] at hsum ⊢
    omega
  · simp only [hsame, if_neg hi] at hsum ⊢
    omega

end Total

section Account

variable (shelf : Shelf σ) (writes : σ → List (Address × String)) (held : σ → α)
  (given : σ → List Json) (docs : ι → Option Document) (format : ι → Format)

/-- The name of the artifact of an exporter. -/
def IsArtifact (i : ι) (out : String) : Prop :=
  ∃ d, docs i = some d ∧ (format i).outName d.name = .ok out

/-- What there is to answer for when a call has come so far. -/
def Call.Tally (c : Call σ ι) : Prop :=
  match c.stage with
  | .asked out => c.renders = 0 ∧ c.records writes = [] ∧ c.IsQuiet held ∧
      IsArtifact docs format c.exporter out
  | .storing out text => c.renders = 1 ∧ c.records writes = [] ∧ c.IsQuiet held ∧
      IsArtifact docs format c.exporter out ∧ c.HasRendered shelf text
  | .ended (.ok .written) => c.renders = 1 ∧ ∃ out text, IsArtifact docs format c.exporter out ∧
      c.HasRendered shelf text ∧ c.records writes = [(.ofOutput out, text)]
  | .ended (.ok _) => c.renders = 0 ∧ c.records writes = [] ∧ c.IsQuiet held
  | .ended (.error _) => c.renders ≤ 1 ∧ c.records writes = [] ∧ c.IsQuiet held

/-- A call answers for what it should. Only its first passage looks up the path of its own document; the
later ones look up the imports. -/
structure Call.IsBalanced (c : Call σ ι) : Prop where
  tally : c.Tally shelf writes held docs format
  started : c.passages ≠ []
  own : ∀ name ∈ c.derived given, ∃ d, docs c.exporter = some d ∧ d.name = name
  imports : ∀ p ∈ c.passages.tail, ∀ d, docs c.exporter = some d →
    p.lookups given <+: d.foreignImports.map Prod.snd

/-- A call has not ended. -/
def Stage.IsOpen : Stage → Prop
  | .ended _ => False
  | _ => True

/-- A call has written its artifact. -/
def Stage.isWritten : Stage → Bool
  | .ended (.ok .written) => true
  | _ => false

theorem Stage.IsOpen.isWritten_eq_false {stage : Stage} (h : stage.IsOpen) :
    stage.isWritten = false := by
  rcases stage with _ | _ | _
  · rfl
  · rfl
  · exact h.elim

/-- The account of a workshop is balanced: its calls are, the shelf has one record more for each that has
written, each exporter counts the texts of its calls, and its own path was given at most once. -/
structure IsBalanced [DecidableEq ι] (start : σ) (w : Workshop σ ι) : Prop where
  docOf : ∀ i, (w.exporters i).doc = docs i
  formatOf : ∀ i, (w.exporters i).format = format i
  calls : ∀ c ∈ w.calls, c.IsBalanced shelf writes held given docs format
  home : ∀ c ∈ w.calls, c.stage.IsOpen → (w.exporters c.exporter).home.isSome
  writes : (writes w.shelf).length =
    (writes start).length + w.calls.countP fun c => c.stage.isWritten
  renders : ∀ i, (w.exporters i).renders = total w.calls i Call.renders
  derived : ∀ i, total w.calls i (fun c => (c.derived given).length) ≤
    if (w.exporters i).home.isSome then 1 else 0

end Account

section Balance

variable {shelf : Shelf σ} {writes : σ → List (Address × String)} {held : σ → α}
  {given : σ → List Json} {docs : ι → Option Document} {format : ι → Format} {start : σ}

theorem isWritten_of_arrived {before after : σ × Exporter} {stage : Stage}
    (h : Exporter.Arrived writes held given before after stage) : stage.isWritten = false := by
  have hstage := h.stage
  rcases stage with _ | _ | (_ | status)
  · rfl
  · rfl
  · rfl
  · obtain rfl | rfl := hstage <;> rfl

/-- A name is looked up only as long as the directory is not known, and then it is. -/
theorem length_lookups_add_le {p : Passage σ} {stage : Stage}
    (h : Exporter.Arrived writes held given p.before p.after stage) :
    (p.lookups given).length + (if p.before.2.home.isSome then 1 else 0) ≤
      if p.after.2.home.isSome then 1 else 0 := by
  obtain ⟨hsame, hgiven⟩ | ⟨hnone, hsome, _, -, hgiven⟩ := h.home
  · rw [Passage.lookups_of_eq_append (hgiven.trans (List.append_nil _).symm), hsame]
    exact Nat.le_of_eq (Nat.zero_add _)
  · rw [Passage.lookups_of_eq_append hgiven, hnone, hsome]
    exact Nat.le_refl 1

/-- A call that has arrived answers for nothing but the name it may have looked up. -/
theorem isBalanced_of_arrived {i : ι} {p : Passage σ} {stage : Stage}
    (h : Exporter.Arrived writes held given p.before p.after stage) (hdoc : p.before.2.doc = docs i)
    (hformat : p.before.2.format = format i) :
    Call.IsBalanced shelf writes held given docs format ⟨i, stage, [p]⟩ := by
  have hrenders : p.renders = 0 := Passage.renders_of_eq_add h.exporter.renders_eq
  have hrecords : p.records writes = [] := Passage.records_of_eq h.account.writes
  have hcount : Call.renders (⟨i, stage, [p]⟩ : Call σ ι) = 0 := by simp [Call.renders, hrenders]
  have hnone : Call.records writes (⟨i, stage, [p]⟩ : Call σ ι) = [] := by
    simp [Call.records, hrecords]
  have hquiet : Call.IsQuiet held (⟨i, stage, [p]⟩ : Call σ ι) := by
    intro q hq
    rw [List.mem_singleton.1 hq]
    exact h.account.held
  refine ⟨?_, by simp, ?_, by simp⟩
  · have hstage := h.stage
    unfold Call.Tally
    rcases stage with out | _ | (err | status)
    · obtain ⟨-, d, hd, hout⟩ := hstage
      exact ⟨hcount, hnone, hquiet, d, hdoc ▸ hd, hformat ▸ hout⟩
    · exact hstage.elim
    · exact ⟨hcount ▸ Nat.zero_le 1, hnone, hquiet⟩
    · obtain rfl | rfl := hstage <;> exact ⟨hcount, hnone, hquiet⟩
  · intro name hname
    change name ∈ p.lookups given at hname
    rcases h.home with ⟨-, hgiven⟩ | ⟨-, -, d, hd, hgiven⟩
    · rw [Passage.lookups_of_eq_append (hgiven.trans (List.append_nil _).symm)] at hname
      cases hname
    · rw [Passage.lookups_of_eq_append hgiven, List.mem_singleton] at hname
      exact ⟨d, hdoc ▸ hd, hname.symm⟩

/-- A call stays balanced with a passage that looks up imports only, as far as its tally does. -/
theorem isBalanced_extend {c : Call σ ι} {stage : Stage} {p : Passage σ}
    (hc : c.IsBalanced shelf writes held given docs format)
    (htally : (c.extend stage p).Tally shelf writes held docs format)
    (hp : ∀ d, docs c.exporter = some d → p.lookups given <+: d.foreignImports.map Prod.snd) :
    (c.extend stage p).IsBalanced shelf writes held given docs format := by
  refine ⟨htally, by simp [Call.extend], ?_, ?_⟩
  · rw [Call.derived_extend hc.started]
    exact hc.own
  · intro q hq
    rw [Call.extend, List.tail_append_of_ne_nil hc.started] at hq
    obtain hq | hq := List.mem_append.1 hq
    · exact hc.imports q hq
    · rw [List.mem_singleton.1 hq]
      exact hp

variable [DecidableEq ι] {w : Workshop σ ι}

/-- What is the same of an exporter is the same of all of them. -/
theorem apply_update {β : Type} (g : Exporter → β) {exporters : ι → Exporter} {i : ι} {e : Exporter}
    (h : g e = g (exporters i)) (j : ι) : g (Function.update exporters i e j) = g (exporters j) := by
  by_cases hj : j = i
  · subst hj
    rw [Function.update_self, h]
  · rw [Function.update_of_ne hj]

theorem renders_update {exporters : ι → Exporter} {i : ι} {e : Exporter} {n : Nat}
    (h : e.renders = (exporters i).renders + n) (j : ι) :
    (Function.update exporters i e j).renders =
      (exporters j).renders + if i = j then n else 0 := by
  by_cases hj : i = j
  · subst hj
    rw [Function.update_self, if_pos rfl, h]
  · rw [Function.update_of_ne (Ne.symm hj), if_neg hj, Nat.add_zero]

theorem home_update {exporters : ι → Exporter} {i : ι} {e : Exporter}
    (h : (exporters i).home.isSome → e.home.isSome) (j : ι) (hj : (exporters j).home.isSome) :
    (Function.update exporters i e j).home.isSome := by
  by_cases hi : j = i
  · subst hi
    rw [Function.update_self]
    exact h hj
  · rw [Function.update_of_ne hi]
    exact hj

theorem isBalanced_fresh (shelf : Shelf σ) (writes : σ → List (Address × String)) (held : σ → α)
    (given : σ → List Json) (docs : ι → Option Document) (format : ι → Format) (start : σ) :
    IsBalanced shelf writes held given docs format start (fresh docs format start) where
  docOf _ := rfl
  formatOf _ := rfl
  calls c hc := by cases hc
  home c hc := by cases hc
  writes := rfl
  renders _ := rfl
  derived _ := Nat.zero_le _

/-! ## Moves -/

/-- A new call keeps the account balanced. -/
theorem IsBalanced.begin (h : shelf.Notes writes held given)
    (hw : IsBalanced shelf writes held given docs format start w) (i : ι) :
    IsBalanced shelf writes held given docs format start (w.next shelf (.call i)) := by
  have harrived := Exporter.arrived_arrive h (w.shelf, w.exporters i)
  rcases hrun : (Exporter.arrive shelf).run (w.shelf, w.exporters i) with ⟨result, s, e⟩
  rw [hrun] at harrived
  rw [next_call hrun]
  generalize Stage.ofResult result = stage at harrived
  let p : Passage σ := ⟨(w.shelf, w.exporters i), (s, e)⟩
  let call : Call σ ι := ⟨i, stage, [p]⟩
  have hcall : call.IsBalanced shelf writes held given docs format :=
    isBalanced_of_arrived harrived (hw.docOf i) (hw.formatOf i)
  have hsame : Exporter.SameButHome (w.exporters i) e := harrived.exporter
  have hhome : (w.exporters i).home.isSome → e.home.isSome := harrived.isSome_home
  have hrenders : call.renders = 0 := by
    simp [call, Call.renders, Passage.renders_of_eq_add (p := p) (n := 0) hsame.renders_eq]
  change IsBalanced shelf writes held given docs format start
    { shelf := s, exporters := Function.update w.exporters i e, calls := w.calls ++ [call] }
  constructor
  case docOf => exact fun j => (apply_update Exporter.doc hsame.doc_eq j).trans (hw.docOf j)
  case formatOf =>
    exact fun j => (apply_update Exporter.format hsame.format_eq j).trans (hw.formatOf j)
  case calls =>
    intro c hc
    obtain hc | hc := List.mem_append.1 hc
    · exact hw.calls c hc
    · rw [List.mem_singleton.1 hc]
      exact hcall
  case home =>
    intro c hc hopen
    obtain hc | hc := List.mem_append.1 hc
    · exact home_update hhome c.exporter (hw.home c hc hopen)
    · obtain rfl := List.mem_singleton.1 hc
      have hstage := harrived.stage
      change (Function.update w.exporters i e i).home.isSome
      rw [Function.update_self]
      change stage.IsOpen at hopen
      rcases stage with out | _ | _
      · exact hstage.1
      · exact hstage.elim
      · exact hopen.elim
  case writes =>
    rw [harrived.account.writes, hw.writes, List.countP_append]
    simp [call, isWritten_of_arrived harrived]
  case renders =>
    intro j
    rw [apply_update Exporter.renders hsame.renders_eq j, hw.renders j, total_concat, hrenders]
    simp
  case derived =>
    intro j
    have hold := hw.derived j
    have hnew := length_lookups_add_le (p := p) harrived
    rw [total_concat]
    change _ + (if i = j then (p.lookups given).length else 0) ≤
      if (Function.update w.exporters i e j).home.isSome then 1 else 0
    by_cases hj : i = j
    · subst hj
      rw [Function.update_self, if_pos rfl, Nat.add_comm]
      exact Nat.le_trans (Nat.add_le_add_left hold _) hnew
    · rw [Function.update_of_ne (Ne.symm hj), if_neg hj]
      exact hold

/-- A call that goes on keeps the account balanced if it answers for what its passage does. -/
theorem IsBalanced.resume (hw : IsBalanced shelf writes held given docs format start w) {k n : Nat}
    {c : Call σ ι} {act : Export σ Stage} {result : Except Failure Stage} {s : σ} {e : Exporter}
    (hk : w.calls[k]? = some c) (hopen : c.stage.IsOpen)
    (hrun : act.run (w.shelf, w.exporters c.exporter) = (result, (s, e)))
    (he : e = { w.exporters c.exporter with renders := (w.exporters c.exporter).renders + n })
    (hwrites : (writes s).length =
      (writes w.shelf).length + if (Stage.ofResult result).isWritten then 1 else 0)
    (hcall : (c.extend (.ofResult result) ⟨(w.shelf, w.exporters c.exporter), (s, e)⟩).IsBalanced
      shelf writes held given docs format) :
    IsBalanced shelf writes held given docs format start (w.resume k c act) := by
  have hmem : c ∈ w.calls := List.mem_of_getElem? hk
  have hold := hw.calls c hmem
  let p : Passage σ := ⟨(w.shelf, w.exporters c.exporter), (s, e)⟩
  let call := c.extend (.ofResult result) p
  have hresumed : w.resume k c act =
      { shelf := s, exporters := Function.update w.exporters c.exporter e
        calls := w.calls.set k call } := by
    simp only [Workshop.resume, pass, hrun]
    rfl
  have hcount : e.renders = (w.exporters c.exporter).renders + n := by rw [he]
  have hexporter : call.exporter = c.exporter := rfl
  rw [hresumed]
  constructor
  case docOf => exact fun j => (apply_update Exporter.doc (by rw [he]) j).trans (hw.docOf j)
  case formatOf => exact fun j => (apply_update Exporter.format (by rw [he]) j).trans (hw.formatOf j)
  case calls =>
    intro c' hc'
    obtain hc' | rfl := List.mem_or_eq_of_mem_set hc'
    · exact hw.calls c' hc'
    · exact hcall
  case home =>
    intro c' hc' hopen'
    have hkept : (w.exporters c.exporter).home.isSome → e.home.isSome := by
      rw [he]
      exact id
    obtain hc' | rfl := List.mem_or_eq_of_mem_set hc'
    · exact home_update hkept c'.exporter (hw.home c' hc' hopen')
    · exact home_update hkept c.exporter (hw.home c hmem hopen)
  case writes =>
    obtain ⟨hlt, hget⟩ := List.getElem?_eq_some_iff.1 hk
    rw [hwrites, hw.writes, List.countP_set hlt, hget, hopen.isWritten_eq_false]
    simp only [Bool.false_eq_true, if_false, Nat.sub_zero, Nat.add_assoc]
    rfl
  case renders =>
    intro j
    have hrenders : call.renders = c.renders + n := by
      rw [Call.renders_extend, Passage.renders_of_eq_add (p := p) hcount]
    rw [renders_update hcount, hw.renders j]
    exact (total_set (f := Call.renders) hk hexporter hrenders j).symm
  case derived =>
    intro j
    have hsame : (call.derived given).length = (c.derived given).length + 0 := by
      rw [Call.derived_extend hold.started, Nat.add_zero]
    have hhome : (Function.update w.exporters c.exporter e j).home = (w.exporters j).home :=
      apply_update Exporter.home (by rw [he]) j
    have htotal := total_set (f := fun c => (c.derived given).length) hk hexporter hsame j
    rw [ite_self, Nat.add_zero] at htotal
    rw [hhome, htotal]
    exact hw.derived j

/-- A call that is told whether its artifact is there keeps the account balanced. -/
theorem IsBalanced.answer (h : shelf.Notes writes held given)
    (hw : IsBalanced shelf writes held given docs format start w) {k : Nat} {i : ι} {out : String}
    {passages : List (Passage σ)} (hk : w.calls[k]? = some ⟨i, .asked out, passages⟩)
    (answer : Except Failure Bool) : IsBalanced shelf writes held given docs format start
      (w.resume k ⟨i, .asked out, passages⟩ (Exporter.proceed shelf out answer)) := by
  have hold := hw.calls _ (List.mem_of_getElem? hk)
  obtain ⟨hrenders, hrecords, hquiet, d, hd, hout⟩ := hold.tally
  have hdoc : (w.exporters i).doc = some d := (hw.docOf i).trans hd
  have hhome := hw.home _ (List.mem_of_getElem? hk) trivial
  obtain ⟨texts, hproceeded⟩ := Exporter.proceeded_proceed h hdoc hhome w.shelf out answer
  rcases hrun : (Exporter.proceed shelf out answer).run (w.shelf, w.exporters i) with ⟨result, s, e⟩
  rw [hrun] at hproceeded
  let p : Passage σ := ⟨(w.shelf, w.exporters i), (s, e)⟩
  have htexts : p.renders = texts :=
    Passage.renders_of_eq_add (congrArg Exporter.renders hproceeded.exporter)
  have hunrecorded : p.records writes = [] := Passage.records_of_eq hproceeded.account.writes
  have hcount : ∀ stage, Call.renders (Call.extend (⟨i, .asked out, passages⟩ : Call σ ι) stage p) =
      texts := by
    intro stage
    rw [Call.renders_extend, hrenders, htexts, Nat.zero_add]
  have hnone : ∀ stage, Call.records writes
      (Call.extend (⟨i, .asked out, passages⟩ : Call σ ι) stage p) = [] := by
    intro stage
    rw [Call.records_extend, hrecords, hunrecorded]
    rfl
  have hstage : Exporter.IsSequel shelf out (w.shelf, w.exporters i) (s, e) texts (.ofResult result) :=
    hproceeded.stage
  have hstill : ∀ stage, Call.IsQuiet held (Call.extend (⟨i, .asked out, passages⟩ : Call σ ι) stage p) :=
    fun stage => hquiet.extend hproceeded.account.held
  refine hw.resume hk trivial hrun hproceeded.exporter ?_ (isBalanced_extend hold ?_ ?_)
  · have hunwritten : (Stage.ofResult result).isWritten = false := by
      generalize Stage.ofResult result = stage at hstage
      rcases stage with _ | _ | (_ | status)
      · rfl
      · rfl
      · rfl
      · rw [hstage.1]
        rfl
    rw [hproceeded.account.writes, hunwritten]
    rfl
  · generalize Stage.ofResult result = stage at hstage ⊢
    rcases stage with _ | ⟨out', text⟩ | (err | status)
    · exact hstage.elim
    · obtain ⟨rfl, hcontents, rfl⟩ := hstage
      exact ⟨hcount _, hnone _, hstill _, ⟨d, hd, hout⟩, p,
        List.mem_append_right _ (List.mem_singleton_self p), hcontents⟩
    · exact ⟨(hcount _).symm ▸ hstage, hnone _, hstill _⟩
    · obtain ⟨rfl, rfl⟩ := hstage
      exact ⟨hcount _, hnone _, hstill _⟩
  · intro d' hd'
    obtain rfl : d' = d := Option.some.inj (hd'.symm.trans hd)
    obtain ⟨seen, hgiven, hseen⟩ := hproceeded.given
    rw [Passage.lookups_of_eq_append (p := p) hgiven]
    exact hseen

/-- A call whose text is stored or refused keeps the account balanced. -/
theorem IsBalanced.store (h : shelf.Notes writes held given)
    (hw : IsBalanced shelf writes held given docs format start w) {k : Nat} {i : ι} {out text : String}
    {passages : List (Passage σ)} (hk : w.calls[k]? = some ⟨i, .storing out text, passages⟩) :
    IsBalanced shelf writes held given docs format start
      (w.resume k ⟨i, .storing out text, passages⟩ (Exporter.deposit shelf out text)) := by
  have hold := hw.calls _ (List.mem_of_getElem? hk)
  obtain ⟨hrenders, hrecords, hquiet, hartifact, hrendered⟩ := hold.tally
  obtain ⟨s, hafter, hgiven, hdeposited⟩ :=
    Exporter.deposited_deposit h out text (w.shelf, w.exporters i)
  rcases hrun : (Exporter.deposit shelf out text).run (w.shelf, w.exporters i) with ⟨result, after⟩
  rw [hrun] at hafter hdeposited
  obtain rfl : after = (s, w.exporters i) := hafter
  let p : Passage σ := ⟨(w.shelf, w.exporters i), (s, w.exporters i)⟩
  have hcount : ∀ stage,
      Call.renders (Call.extend (⟨i, .storing out text, passages⟩ : Call σ ι) stage p) = 1 := by
    intro stage
    rw [Call.renders_extend, hrenders, Passage.renders_of_eq_add (p := p) (n := 0) rfl]
  refine hw.resume (n := 0) hk trivial hrun rfl ?_ (isBalanced_extend hold ?_ ?_)
  · generalize Stage.ofResult result = stage at hdeposited ⊢
    cases hdeposited with
    | stored hwrites => rw [hwrites, List.length_append]; rfl
    | refused err haccount => rw [haccount.writes]; rfl
  · generalize Stage.ofResult result = stage at hdeposited ⊢
    cases hdeposited with
    | stored hwrites =>
      refine ⟨hcount _, out, text, hartifact, hrendered.extend, ?_⟩
      rw [Call.records_extend, hrecords, Passage.records_of_eq_append (p := p) hwrites]
      rfl
    | refused err haccount =>
      refine ⟨Nat.le_of_eq (hcount _), ?_, hquiet.extend haccount.held⟩
      rw [Call.records_extend, hrecords, Passage.records_of_eq (p := p) haccount.writes]
      rfl
  · intro d hd
    rw [Passage.lookups_of_eq_append (p := p) (hgiven.trans (List.append_nil _).symm)]
    exact List.nil_prefix

/-- A move that does not change the record of the shelf from outside keeps the account balanced. -/
theorem IsBalanced.next (h : shelf.Notes writes held given)
    (hw : IsBalanced shelf writes held given docs format start w) {move : Move σ ι}
    (hmove : ∀ change, move = .outside change → ∀ s, writes (change s) = writes s) :
    IsBalanced shelf writes held given docs format start (w.next shelf move) := by
  cases move with
  | call i => exact hw.begin h i
  | answer k answer =>
    dsimp only [Workshop.next]
    split
    · rename_i hk
      exact hw.answer h hk answer
    · exact hw
  | store k =>
    dsimp only [Workshop.next]
    split
    · rename_i hk
      exact hw.store h hk
    · exact hw
  | outside change =>
    exact ⟨hw.docOf, hw.formatOf, hw.calls, hw.home, (hmove change rfl w.shelf).symm ▸ hw.writes,
      hw.renders, hw.derived⟩

/-- Any number of moves keeps the account balanced. -/
theorem IsBalanced.after (h : shelf.Notes writes held given)
    (hw : IsBalanced shelf writes held given docs format start w) {moves : List (Move σ ι)}
    (hmoves : ∀ change, .outside change ∈ moves → ∀ s, writes (change s) = writes s) :
    IsBalanced shelf writes held given docs format start (w.after shelf moves) := by
  induction moves generalizing w with
  | nil => exact hw
  | cons move moves ih =>
    refine ih (hw.next h fun change hchange => hmoves change (by simp [hchange])) ?_
    exact fun change hchange => hmoves change (List.mem_cons_of_mem _ hchange)

end Balance

/-- The account of exporters that share a shelf which records what is stored, whatever calls there are, in
whatever order they go on, whatever they are told and whatever fails. A call that ends without having
written has put no text together and recorded nothing. A call that has written has put one text together
and recorded it once, at the address of its artifact, which is not local. A call that has failed has put
at most one text together, recorded nothing and changed nothing of what the shelf holds. So there are as
many records as calls that have written, and for its directory each exporter was given a path at most
once: its own. An export that is not interrupted is one of these calls. -/
theorem calls_account [DecidableEq ι] {shelf : Shelf σ} {writes : σ → List (Address × String)}
    {held : σ → α} (h : shelf.Records writes held) (docs : ι → Option Document) (format : ι → Format)
    (start : σ) {moves : List (Move (Noted σ) ι)}
    (hmoves : ∀ change, .outside change ∈ moves → ∀ n, writes (change n).shelf = writes n.shelf) :
    let w := (fresh docs format { shelf := start }).after shelf.noting moves
    (∀ c ∈ w.calls,
      (∀ status, c.stage = .ended (.ok status) → status ≠ .written →
        c.renders = 0 ∧ c.records (fun n => writes n.shelf) = []) ∧
      (c.stage = .ended (.ok .written) → c.renders = 1 ∧ ∃ d out text, docs c.exporter = some d ∧
        (format c.exporter).outName d.name = .ok out ∧ c.HasRendered shelf.noting text ∧
        c.records (fun n => writes n.shelf) = [(.ofOutput out, text)] ∧
        (Address.ofOutput out).isLocal = false) ∧
      ∀ err, c.stage = .ended (.error err) → c.renders ≤ 1 ∧
        c.records (fun n => writes n.shelf) = [] ∧ c.IsQuiet fun n => held n.shelf) ∧
    (writes w.shelf.shelf).length =
      (writes start).length + w.calls.countP (fun c => c.stage.isWritten) ∧
    (∀ i, (w.exporters i).renders = total w.calls i Call.renders ∧
      total w.calls i (fun c => (c.derived Noted.given).length) ≤ 1) ∧
    (∀ c ∈ w.calls, ∀ d, docs c.exporter = some d → (∀ name ∈ c.derived Noted.given, name = d.name) ∧
      ∀ p ∈ c.passages.tail, p.lookups Noted.given <+: d.foreignImports.map Prod.snd) ∧
    ∀ i, ∃ answer passages, w.after shelf.noting
        [.call i, .answer w.calls.length answer, .store w.calls.length] =
      let (result, after) := (Exporter.prepare shelf.noting).run (w.shelf, w.exporters i)
      w.put i after.1 after.2 (.ended result) passages := by
  intro w
  have hw := (isBalanced_fresh shelf.noting (fun n => writes n.shelf) (fun n => held n.shelf)
    Noted.given docs format { shelf := start }).after h.noting hmoves
  refine ⟨fun c hc => ⟨fun status hstage hstatus => ?_, fun hstage => ?_, fun err hstage => ?_⟩,
    hw.writes, fun i => ⟨hw.renders i, ?_⟩, fun c hc d hd => ⟨fun name hname => ?_, fun p hp => ?_⟩,
    fun i => after_prepare _ w i⟩
  · have htally := (hw.calls c hc).tally
    rw [Call.Tally, hstage] at htally
    cases status with
    | written => exact absurd rfl hstatus
    | _ => exact ⟨htally.1, htally.2.1⟩
  · have htally := (hw.calls c hc).tally
    rw [Call.Tally, hstage] at htally
    obtain ⟨hrenders, out, text, ⟨d, hd, hout⟩, hrendered, hrecords⟩ := htally
    exact ⟨hrenders, d, out, text, hd, hout, hrendered, hrecords, rfl⟩
  · have htally := (hw.calls c hc).tally
    rw [Call.Tally, hstage] at htally
    exact htally
  · refine Nat.le_trans (hw.derived i) ?_
    split
    · exact Nat.le_refl 1
    · exact Nat.zero_le 1
  · obtain ⟨d', hd', rfl⟩ := (hw.calls c hc).own name hname
    rw [Option.some.inj (hd.symm.trans hd')]
  · exact (hw.calls c hc).imports p hp d hd

/-- Two calls of one exporter overlap, a third has no document, and the fourth fails to store. -/
theorem calls_account_overlapping : ∃ (docs : Bool → Option Document)
    (moves : List (Move (Noted Rehearsal) Bool)) (w : Workshop (Noted Rehearsal) Bool),
    w = (fresh docs (fun _ => .typeScript)
      { shelf := { paths := [(.string "a", "/a"), (.string "b", "/b")] } }).after
        Rehearsal.shelf.noting moves ∧
    (w.calls.map fun c => (c.stage.isWritten, c.renders)) =
      [(true, 1), (false, 0), (false, 0), (false, 1)] ∧
    (w.exporters true).renders = 2 ∧ w.shelf.given.length = 3 ∧
    w.shelf.shelf.writes.length = w.calls.countP (fun c => c.stage.isWritten) ∧
    ∀ c ∈ w.calls, c.stage = .ended (.ok .written) → c.renders = 1 ∧
      ∃ out text, c.records (fun n => n.shelf.writes) = [(.ofOutput out, text)] := by
  let fault : Incident := { label := "OSError", transient := true, message := "full" }
  let docs (i : Bool) : Option Document :=
    if i then
      some { name := .string "a", imports := [(.string "B", .string "b")], used := ["B"] }
    else none
  let moves : List (Move (Noted Rehearsal) Bool) :=
    [.call true, .call true, .call false, .answer 0 (.ok false), .answer 1 (.ok true), .store 0,
      .outside fun n => { n with shelf := { n.shelf with fault := some fault } },
      .call true, .answer 3 (.ok false), .store 3]
  have hmoves : ∀ change, .outside change ∈ moves → ∀ n, (change n).shelf.writes = n.shelf.writes := by
    intro change hchange n
    simp only [moves, List.mem_cons, List.not_mem_nil, reduceCtorEq, Move.outside.injEq, false_or,
      or_false] at hchange
    rw [hchange]
  obtain ⟨hcalls, hwrites, -⟩ := calls_account Rehearsal.records_shelf docs (fun _ => .typeScript)
    { paths := [(.string "a", "/a"), (.string "b", "/b")] } hmoves
  refine ⟨docs, moves, _, rfl, by decide +kernel, by decide +kernel, by decide +kernel,
    hwrites.trans (Nat.zero_add _), fun c hc hstage => ?_⟩
  obtain ⟨hrenders, _, out, text, -, -, -, hrecords, -⟩ := (hcalls c hc).2.1 hstage
  exact ⟨hrenders, out, text, hrecords⟩

end Workshop
end SchemaArtifacts
