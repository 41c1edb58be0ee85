import SchemaArtifacts.Text.Cut

/-!
# Words and string literals

What is written between single quotes is read up to the next single quote, and a backslash begins an
escape sequence. A text without backslashes is read as itself, unless it holds a single quote or a line
break of its own.

## Main definitions

* `IsWord` — texts of letters, digits and the like, identifiers among them
* `Literal.Reads`, `Literal.Denotes` — how a string literal is read

## Main results

* `Literal.denotes_self_iff` — which texts without backslashes are read as themselves
-/

namespace SchemaArtifacts

/-- A character that can stand in an identifier. Beyond ASCII none is ruled out. -/
def IsWordChar (c : Char) : Prop := c.isAlphanum ∨ c = '_' ∨ c = '$' ∨ 128 ≤ c.toNat

instance : DecidablePred IsWordChar := fun c =>
  inferInstanceAs (Decidable (c.isAlphanum ∨ c = '_' ∨ c = '$' ∨ 128 ≤ c.toNat))

/-- A text that is not empty and made of such characters. Every identifier is one. -/
structure IsWord (s : String) : Prop where
  nonempty : s.toList ≠ []
  chars : ∀ c ∈ s.toList, IsWordChar c

instance : DecidablePred IsWord := fun s =>
  decidable_of_iff (s.toList ≠ [] ∧ s.toList.all fun c => IsWordChar c)
    ⟨fun h => ⟨h.1, by simpa using h.2⟩, fun h => ⟨h.nonempty, by simpa using h.chars⟩⟩

theorem IsWord.not_mem {s : String} (h : IsWord s) {c : Char} (hc : ¬ IsWordChar c) :
    c ∉ s.toList :=
  fun hmem => hc (h.chars c hmem)

namespace Literal

/-- A character that a literal shows as it is. The line and the paragraph separator are among them. -/
def IsPlain (c : Char) : Prop := c ≠ '\'' ∧ c ≠ '\\' ∧ c ≠ '\n' ∧ c ≠ '\r'

/-- From behind its opening quote, a literal is read as `text`, and `rest` follows its closing quote. What
a backslash and a sequence stand for is told by `escapes`. -/
inductive Reads (escapes : List Char → List Char → Prop) :
    (source text rest : List Char) → Prop
  | close (rest : List Char) : Reads escapes ('\'' :: rest) [] rest
  | plain {c : Char} {source text rest : List Char} (hc : IsPlain c)
      (h : Reads escapes source text rest) : Reads escapes (c :: source) (c :: text) rest
  | escaped {sequence value source text rest : List Char} (hs : escapes sequence value)
      (h : Reads escapes source text rest) :
      Reads escapes ('\\' :: (sequence ++ source)) (value ++ text) rest

/-- Between single quotes, `body` is a literal that is read as `text`. -/
def Denotes (escapes : List Char → List Char → Prop) (body text : List Char) : Prop :=
  Reads escapes (body ++ ['\'']) text []

variable {escapes : List Char → List Char → Prop} {body text rest : List Char}

theorem reads_append (h : ∀ c ∈ body, IsPlain c) (rest : List Char) :
    Reads escapes (body ++ '\'' :: rest) body rest := by
  induction body with
  | nil => exact .close rest
  | cons c body ih =>
    obtain ⟨hc, hbody⟩ := List.forall_mem_cons.1 h
    exact .plain hc (ih hbody)

/-- Without backslashes, what is read as the whole body is plain. -/
theorem Reads.isPlain {after : List Char} (h : Reads escapes (body ++ '\'' :: after) body rest)
    (hbackslash : '\\' ∉ body) : ∀ c ∈ body, IsPlain c := by
  induction body with
  | nil => simp
  | cons c body ih =>
    rw [List.mem_cons, not_or] at hbackslash
    generalize hsource : c :: body ++ '\'' :: after = source at h
    generalize htext : c :: body = text at h
    cases h with
    | close => cases htext
    | plain hc h =>
      obtain ⟨rfl, rfl⟩ := List.cons.inj htext
      rw [← (List.cons.inj hsource).2] at h
      exact List.forall_mem_cons.2 ⟨hc, ih h hbackslash.2⟩
    | escaped => exact absurd (List.cons.inj hsource).1.symm hbackslash.1

/-- A text without backslashes is read as itself if it has no single quote and no line break. -/
theorem denotes_self_iff (h : '\\' ∉ body) :
    Denotes escapes body body ↔ '\'' ∉ body ∧ '\n' ∉ body ∧ '\r' ∉ body := by
  constructor
  · intro hreads
    have hplain := hreads.isPlain h
    exact ⟨fun hmem => (hplain _ hmem).1 rfl, fun hmem => (hplain _ hmem).2.2.1 rfl,
      fun hmem => (hplain _ hmem).2.2.2 rfl⟩
  · rintro ⟨hquote, hfeed, hreturn⟩
    refine reads_append (fun c hc => ⟨?_, ?_, ?_, ?_⟩) []
    · exact fun heq => hquote (heq ▸ hc)
    · exact fun heq => h (heq ▸ hc)
    · exact fun heq => hfeed (heq ▸ hc)
    · exact fun heq => hreturn (heq ▸ hc)

end Literal
end SchemaArtifacts
