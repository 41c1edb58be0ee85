import SchemaArtifacts.Failure
import SchemaArtifacts.Result

/-!
# Operations that may fail

An operation works on a state and may fail. What it did before it failed stays done.

## Main definitions

* `Act` — operations on a state
* `Act.ofExcept` — a result that needs no state
* `Act.onPart` — an operation on a part of the state

## Main results

* `Act.run_bind`, `Act.run_pure`, `Act.run_throw`, `Act.run_get`, `Act.run_modify` — what operations
  do to a state
* `Act.run_bind_eq_ok` — when a sequence of two operations gives a result
* `Act.run_map`, `Act.run_onPart` — what becomes of a result, and of the rest of a state
-/

namespace SchemaArtifacts

/-- Operations on a state that may fail and keep what they did before. -/
abbrev Act (σ : Type) := ExceptT Failure (StateM σ)

namespace Act

variable {σ τ α β : Type}

/-- A result that needs no state. -/
def ofExcept {ε : Type} (wrap : ε → Failure) : Except ε α → Act σ α
  | .ok a => pure a
  | .error e => throw (wrap e)

/-- The operation on a part of the state. -/
def onPart (part : τ → σ) (put : σ → τ → τ) (act : Act σ α) : Act τ α :=
  ExceptT.mk fun whole =>
    let (result, rest) := act.run (part whole)
    (result, put rest whole)

theorem run_pure (a : α) (s : σ) : (pure a : Act σ α).run s = (.ok a, s) := rfl

theorem run_throw (e : Failure) (s : σ) : (throw e : Act σ α).run s = (.error e, s) := rfl

theorem run_get (s : σ) : (get : Act σ σ).run s = (.ok s, s) := rfl

theorem run_modify (f : σ → σ) (s : σ) : (modify f : Act σ PUnit).run s = (.ok ⟨⟩, f s) := rfl

theorem run_bind (act : Act σ α) (next : α → Act σ β) (s : σ) :
    (act >>= next).run s = match act.run s with
      | (.ok a, t) => (next a).run t
      | (.error e, t) => (.error e, t) := by
  simp only [ExceptT.run, bind, ExceptT.bind, ExceptT.mk, StateT.bind, ExceptT.bindCont]
  cases act s with
  | mk result t => cases result <;> rfl

theorem run_map (f : α → β) (act : Act σ α) (s : σ) :
    (f <$> act).run s = ((act.run s).1.map f, (act.run s).2) := by
  simp only [ExceptT.run, Functor.map, ExceptT.map, ExceptT.mk, bind, StateT.bind]
  cases act s with
  | mk result t => cases result <;> rfl

theorem run_discard (act : Act σ α) (s : σ) :
    (discard act).run s = ((act.run s).1.map fun _ => ⟨⟩, (act.run s).2) := run_map _ act s

theorem run_onPart (part : τ → σ) (put : σ → τ → τ) (act : Act σ α) (whole : τ) :
    (onPart part put act).run whole =
      ((act.run (part whole)).1, put (act.run (part whole)).2 whole) := rfl

/-- A sequence of two operations gives a result if both do, the second on what the first left. -/
theorem run_bind_eq_ok {act : Act σ α} {next : α → Act σ β} {s t : σ} {b : β} :
    (act >>= next).run s = (.ok b, t) ↔
      ∃ a s', act.run s = (.ok a, s') ∧ (next a).run s' = (.ok b, t) := by
  rw [run_bind]
  rcases act.run s with ⟨a | a, s'⟩
  · constructor
    · intro h
      cases congrArg Prod.fst h
    · rintro ⟨_, _, h, -⟩
      cases congrArg Prod.fst h
  · constructor
    · exact fun h => ⟨a, s', rfl, h⟩
    · rintro ⟨_, _, h, h'⟩
      cases h
      exact h'

theorem eq_ok_of_toOption {ε : Type} {x : Except ε α} {a : α} (h : x.toOption = some a) :
    x = .ok a := by
  cases x with
  | error e => cases h
  | ok b => exact congrArg Except.ok (Option.some.inj h)

/-- What is known of a result tells that there is one. -/
theorem exists_of_map_run {act : Act σ α} {f : α → β} {s : σ} {b : β}
    (h : (act.run s).1.toOption.map f = some b) : ∃ a t, act.run s = (.ok a, t) ∧ f a = b := by
  cases hrun : act.run s with
  | mk result t =>
    rw [hrun] at h
    cases result with
    | error e => cases h
    | ok a => exact ⟨a, t, rfl, Option.some.inj h⟩

theorem run_ofExcept_ok {ε : Type} (wrap : ε → Failure) (a : α) (s : σ) :
    (ofExcept wrap (.ok a) : Act σ α).run s = (.ok a, s) := rfl

theorem run_ofExcept_error {ε : Type} (wrap : ε → Failure) (e : ε) (s : σ) :
    (ofExcept wrap (.error e) : Act σ α).run s = (.error (wrap e), s) := rfl

/-- A result that needs no state leaves the state as it was. -/
theorem snd_run_ofExcept {ε : Type} (wrap : ε → Failure) (x : Except ε α) (s : σ) :
    ((ofExcept wrap x : Act σ α).run s).2 = s := by
  cases x <;> rfl

theorem run_ofExcept_eq_ok {ε : Type} {wrap : ε → Failure} {x : Except ε α} {s t : σ} {a : α} :
    (ofExcept wrap x : Act σ α).run s = (.ok a, t) ↔ x = .ok a ∧ t = s := by
  cases x with
  | ok b =>
    rw [run_ofExcept_ok, Prod.mk.injEq, Except.ok.injEq, Except.ok.injEq, eq_comm (a := s)]
  | error e =>
    rw [run_ofExcept_error]
    constructor
    · intro h
      cases congrArg Prod.fst h
    · rintro ⟨h, -⟩
      cases h

end Act

end SchemaArtifacts
