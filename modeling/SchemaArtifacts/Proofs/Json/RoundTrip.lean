import SchemaArtifacts.Json.Reader
import SchemaArtifacts.Json.Writer

/-!
# What is written reads back

A value without numbers is written as a text that reads back as the value. A text literal is read
character by character, and the escape of each character leads back to it; halves of pairs stand
side by side and are joined, and the closing mark makes sure that something follows every escape.
Lists and objects are read part by part, and blanks between the parts are skipped.

## Main definitions

* `Json.IsPlain` — values without numbers, whose objects have different names for their fields

## Main results

* `Json.readText_flatMap_writeChar` — a text literal reads back
* `Json.IsPlain.readsBack` — a value reads back, whatever follows it
* `Json.IsPlain.parse_write` — the text of a value is the text of that value
-/

namespace SchemaArtifacts.Json

variable {s rest opening : List Char} {c e : Char} {n m : Nat}

/-! ## Characters -/

/-- The character that is read in front of a text. -/
abbrev inFront (c : Char) (read : Except Problem (List Char × List Char)) :
    Except Problem (List Char × List Char) :=
  read.map fun (text, last) => (c :: text, last)

theorem readText_plain (hmark : c ≠ '"') (hescape : c ≠ '\\') (hvisible : 0x1f < c.toNat)
    (opening rest : List Char) :
    readText opening (c :: rest) = inFront c (readText opening rest) := by
  rw [readText, if_neg (by omega)]
  · cases readText opening rest <;> rfl
  · exact hmark
  · exact fun heq _ => hescape heq
  · exact fun _ _ heq _ => hescape heq

theorem readText_escape (hletter : e ≠ 'u') (hescape : escaped? e = some c)
    (opening rest : List Char) :
    readText opening ('\\' :: e :: rest) = inFront c (readText opening rest) := by
  rw [readText, if_neg hletter, hescape]
  cases readText opening rest <;> rfl

theorem readText_unit (h : readCodeUnit ('u' :: s) = .ok (c, rest)) (opening : List Char) :
    readText opening ('\\' :: 'u' :: s) = inFront c (readText opening rest) := by
  rw [readText, if_pos rfl]
  split
  · rename_i hread
    cases hread.symm.trans h
    cases readText opening rest <;> rfl
  · rename_i hread
    cases hread.symm.trans h

/-! ## Escapes by code unit -/

theorem codeUnit?_hexNumeral (h : n < 0x10000) : ∃ d₃ d₂ d₁ d₀ : Char,
    Text.hexNumeral 4 n = [d₃, d₂, d₁, d₀] ∧ codeUnit? d₃ d₂ d₁ d₀ = some n := by
  refine ⟨_, _, _, _, rfl, ?_⟩
  have hdigit : ∀ k, Text.hexValue? (Text.hexDigit (k % 16)) = some (k % 16) :=
    fun k => Text.hexValue?_hexDigit _ (Nat.mod_lt _ (by decide))
  simp only [codeUnit?, hdigit, bind, Option.bind_some, pure, Option.some.injEq]
  omega

/-- An escape by code unit is read if something follows it. -/
theorem readCodeUnit_hexNumeral (h : n < 0x10000) (hrest : rest ≠ []) :
    readCodeUnit ('u' :: (Text.hexNumeral 4 n ++ rest)) = .ok (joinNext n rest) := by
  obtain ⟨next, last, rfl⟩ := List.exists_cons_of_ne_nil hrest
  obtain ⟨d₃, d₂, d₁, d₀, hdigits, hunit⟩ := codeUnit?_hexNumeral h
  simp only [hdigits, List.cons_append, List.nil_append, readCodeUnit, hunit]

theorem readText_unitEscape (h : n < 0x10000) (hrest : rest ≠ []) (opening : List Char) :
    readText opening (unitEscape n ++ rest) =
      inFront (joinNext n rest).1 (readText opening (joinNext n rest).2) := by
  rw [unitEscape, List.cons_append, List.cons_append]
  exact readText_unit (readCodeUnit_hexNumeral h hrest) opening

/-- A code unit that is no first half stays by itself. -/
theorem joinNext_of_not_high (h : isHighHalf n = false) (rest : List Char) :
    joinNext n rest = (ofCodeUnit n, rest) := by
  unfold joinNext
  simp only [h, Bool.false_and, Bool.false_eq_true, if_false]
  split
  · split <;> rfl
  · rfl

/-- A first half is joined with the second half that follows it. -/
theorem joinNext_of_low (hn : isHighHalf n) (hm : isLowHalf m) (hrest : rest ≠ []) :
    joinNext n (unitEscape m ++ rest) = (joinHalves n m, rest) := by
  obtain ⟨next, last, rfl⟩ := List.exists_cons_of_ne_nil hrest
  have hlt : m < 0x10000 := by
    simp only [isLowHalf, Bool.and_eq_true, decide_eq_true_eq] at hm
    omega
  obtain ⟨d₃, d₂, d₁, d₀, hdigits, hunit⟩ := codeUnit?_hexNumeral hlt
  simp only [unitEscape, hdigits, List.cons_append, List.nil_append, joinNext, hunit, hn, hm,
    Bool.and_self, if_true]

theorem toNat_of_lt (c : Char) (h : c.toNat < 0x10000) :
    isHighHalf c.toNat = false ∧ ofCodeUnit c.toNat = c := by
  have hvalid : c.toNat < 0xd800 ∨ 0xdfff < c.toNat ∧ c.toNat < 0x110000 := c.valid
  have hhigh : isHighHalf c.toNat = false := by
    simp only [isHighHalf, Bool.and_eq_false_iff, decide_eq_false_iff_not]
    omega
  have hlow : isLowHalf c.toNat = false := by
    simp only [isLowHalf, Bool.and_eq_false_iff, decide_eq_false_iff_not]
    omega
  refine ⟨hhigh, ?_⟩
  rw [ofCodeUnit, hhigh, hlow, Bool.false_or, if_neg Bool.false_ne_true, Char.ofNat_toNat]

theorem halves_of_le (c : Char) (h : 0x10000 ≤ c.toNat) :
    isHighHalf (0xd800 + (c.toNat - 0x10000) / 0x400) ∧
      isLowHalf (0xdc00 + (c.toNat - 0x10000) % 0x400) ∧
      joinHalves (0xd800 + (c.toNat - 0x10000) / 0x400)
        (0xdc00 + (c.toNat - 0x10000) % 0x400) = c := by
  have hvalid : c.toNat < 0xd800 ∨ 0xdfff < c.toNat ∧ c.toNat < 0x110000 := c.valid
  refine ⟨?_, ?_, ?_⟩
  · simp only [isHighHalf, Bool.and_eq_true, decide_eq_true_eq]
    omega
  · simp only [isLowHalf, Bool.and_eq_true, decide_eq_true_eq]
    omega
  · have hcode : 0x10000 + (0xd800 + (c.toNat - 0x10000) / 0x400 - 0xd800) * 0x400 +
        (0xdc00 + (c.toNat - 0x10000) % 0x400 - 0xdc00) = c.toNat := by omega
    rw [joinHalves, hcode, Char.ofNat_toNat]

/-- A written character reads back if something follows it. -/
theorem readText_writeChar (c : Char) (hrest : rest ≠ []) (opening : List Char) :
    readText opening (writeChar c ++ rest) = inFront c (readText opening rest) := by
  unfold writeChar
  split
  case isTrue h =>
    simp only [Bool.or_eq_true, decide_eq_true_eq] at h
    exact readText_escape (by rcases h with rfl | rfl <;> decide)
      (by rcases h with rfl | rfl <;> decide) opening rest
  case isFalse hplain =>
  simp only [Bool.or_eq_true, decide_eq_true_eq, not_or] at hplain
  split
  case isTrue h =>
    simp only [Bool.and_eq_true, decide_eq_true_eq] at h
    have hvisible : ' '.toNat ≤ c.toNat := h.1
    exact readText_plain hplain.1 hplain.2 (Nat.lt_of_lt_of_le (by decide) hvisible) opening rest
  split
  case isTrue h => exact h ▸ readText_escape (by decide) (by decide) opening rest
  split
  case isTrue h => exact h ▸ readText_escape (by decide) (by decide) opening rest
  split
  case isTrue h => exact h ▸ readText_escape (by decide) (by decide) opening rest
  split
  case isTrue h => exact h ▸ readText_escape (by decide) (by decide) opening rest
  split
  case isTrue h => exact h ▸ readText_escape (by decide) (by decide) opening rest
  split
  case isTrue h =>
    obtain ⟨hhigh, hself⟩ := toNat_of_lt c h
    rw [readText_unitEscape h hrest, joinNext_of_not_high hhigh, hself]
  case isFalse h =>
    -- Above the basic plane there are two escapes, and the first of them is joined with the second.
    obtain ⟨hhigh, hlow, hself⟩ := halves_of_le c (Nat.le_of_not_lt h)
    have hlt : 0xd800 + (c.toNat - 0x10000) / 0x400 < 0x10000 := by
      simp only [isHighHalf, Bool.and_eq_true, decide_eq_true_eq] at hhigh
      omega
    rw [List.append_assoc, readText_unitEscape hlt (by simp [unitEscape]),
      joinNext_of_low hhigh hlow hrest, hself]

/-- A text literal reads back. -/
theorem readText_flatMap_writeChar (s opening rest : List Char) :
    readText opening (s.flatMap writeChar ++ '"' :: rest) = .ok (s, rest) := by
  induction s with
  | nil => exact readText_mark opening rest
  | cons c s ih =>
    rw [List.flatMap_cons, List.append_assoc, readText_writeChar c (by simp), ih]
    rfl

theorem writeText_append (text : String) (rest : List Char) :
    writeText text ++ rest = '"' :: (text.toList.flatMap writeChar ++ '"' :: rest) := by
  simp [writeText]

/-- A text literal is a value. -/
theorem readScalar_writeText (text : String) (rest : List Char) :
    readScalar (writeText text ++ rest) = .ok (.string text, rest) := by
  rw [writeText_append, readScalar, readText_flatMap_writeChar, Except.map]
  simp only [String.ofList_toList]

/-! ## Blanks -/

theorem skipBlanks_newLine (level : Nat) (rest : List Char) :
    skipBlanks (newLine level ++ rest) = skipBlanks rest := by
  rw [newLine, List.cons_append, skipBlanks, List.dropWhile_cons_of_pos (by decide)]
  rw [List.dropWhile_append_of_pos]
  · rfl
  · intro c hc
    obtain rfl := (List.mem_replicate.1 hc).2
    rfl

theorem skipBlanks_cons (h : isBlank c = false) (rest : List Char) :
    skipBlanks (c :: rest) = c :: rest := by
  rw [skipBlanks, List.dropWhile_cons_of_neg (by simp [h])]

theorem skipBlanks_writeText (text : String) (rest : List Char) :
    skipBlanks (writeText text ++ rest) = writeText text ++ rest := by
  rw [writeText_append, skipBlanks_cons (by decide)]

/-! ## Values -/

/-- A value without numbers, whose objects have different names for their fields. -/
inductive IsPlain : Json → Prop
  | null : IsPlain .null
  | bool (b : Bool) : IsPlain (.bool b)
  | string (text : String) : IsPlain (.string text)
  | list {items : List Json} (h : ∀ a ∈ items, IsPlain a) : IsPlain (.list items)
  | object {fields : List (String × Json)} (hnodup : (fields.map Prod.fst).Nodup)
    (h : ∀ field ∈ fields, IsPlain field.2) : IsPlain (.object fields)

/-- A written value starts with a character that is neither a blank, a closing bracket nor a mark of
the byte order. -/
theorem IsPlain.exists_write_eq_cons {a : Json} (h : a.IsPlain) (level : Nat) :
    ∃ c s, write level a = c :: s ∧ isBlank c = false ∧ c ≠ ']' ∧ c ≠ Char.ofNat 0xfeff := by
  cases h with
  | null => exact ⟨_, _, by rw [write]; rfl, by decide, by decide, by decide⟩
  | bool b => cases b <;> exact ⟨_, _, by rw [write]; rfl, by decide, by decide, by decide⟩
  | string text => exact ⟨_, _, by rw [write]; rfl, by decide, by decide, by decide⟩
  | @list items _ =>
    cases items with
    | nil => exact ⟨_, _, by rw [write], by decide, by decide, by decide⟩
    | cons a items => exact ⟨_, _, by rw [write]; rfl, by decide, by decide, by decide⟩
  | @object fields _ _ =>
    cases fields with
    | nil => exact ⟨_, _, by rw [write], by decide, by decide, by decide⟩
    | cons field fields => exact ⟨_, _, by rw [write]; rfl, by decide, by decide, by decide⟩

theorem IsPlain.skipBlanks_write {a : Json} (h : a.IsPlain) (level : Nat) (rest : List Char) :
    skipBlanks (write level a ++ rest) = write level a ++ rest := by
  obtain ⟨c, s, hwrite, hblank, -⟩ := h.exists_write_eq_cons level
  rw [hwrite, List.cons_append, skipBlanks_cons hblank]

/-- A value reads back if the bound is at least the length of its text. -/
def ReadsBack (level : Nat) (a : Json) : Prop :=
  ∀ (bound : Nat) (rest : List Char), (write level a).length ≤ bound →
    readValue bound (write level a ++ rest) = .ok (a, rest)

theorem readItems_write {level outer bound : Nat} {a : Json} {items : List Json}
    (hread : ∀ b ∈ a :: items, ReadsBack level b) (hplain : ∀ b ∈ a :: items, b.IsPlain)
    (hbound : (write level a).length + (writeItems level items).length < bound)
    (rest : List Char) :
    readItems bound (write level a ++ (writeItems level items ++ (newLine outer ++ ']' :: rest))) =
      .ok (a :: items, rest) := by
  -- By the items that are left. Each costs one of the bound, which the length of the text covers.
  induction items generalizing a bound with
  | nil =>
    obtain _ | bound := bound
    · omega
    · rw [readItems, (List.forall_mem_cons.1 hread).1 bound _ (by omega), writeItems,
        List.nil_append]
      simp only [bind, Except.bind, skipBlanks_newLine, skipBlanks_cons (c := ']') rfl]
      rfl
  | cons b items ih =>
    obtain ⟨hfirst, hread⟩ := List.forall_mem_cons.1 hread
    obtain ⟨-, hplain⟩ := List.forall_mem_cons.1 hplain
    simp only [writeItems, List.length_append, List.length_cons] at hbound
    obtain _ | bound := bound
    · omega
    · have hrest := @ih bound b hread hplain (by omega)
      rw [readItems, hfirst bound _ (by omega), writeItems]
      simp only [bind, Except.bind, List.cons_append, List.append_assoc,
        skipBlanks_cons (c := ',') rfl, skipBlanks_newLine,
        (List.forall_mem_cons.1 hplain).1.skipBlanks_write, hrest]
      rfl

/-- A field that is new goes to the end. -/
theorem setField_of_notMem {name : String} {known : List (String × Json)}
    (h : name ∉ known.map Prod.fst) (a : Json) : setField name a known = known ++ [(name, a)] := by
  induction known with
  | nil => rfl
  | cons field known ih =>
    rw [List.map_cons, List.mem_cons, not_or] at h
    rw [setField, if_neg (Ne.symm h.1), ih h.2]
    rfl

theorem notMem_of_nodup_append {name : String} {a : Json} {known fields : List (String × Json)}
    (h : ((known ++ (name, a) :: fields).map Prod.fst).Nodup) : name ∉ known.map Prod.fst := by
  rw [List.map_append, List.nodup_append] at h
  exact fun hmem => h.2.2 name hmem name List.mem_cons_self rfl

/-- One field is read, and what follows it decides whether there are others. -/
theorem readFields_field {level bound : Nat} {a : Json} (hread : ReadsBack level a)
    (hplain : a.IsPlain) (hbound : (write level a).length ≤ bound) (name : String)
    (known : List (String × Json)) (rest : List Char) :
    readFields (bound + 1) known (writeText name ++ (':' :: ' ' :: (write level a ++ rest))) =
      match skipBlanks rest with
      | '}' :: last => .ok (setField name a known, last)
      | ',' :: next => readFields bound (setField name a known) (skipBlanks next)
      | other => fail .comma other := by
  have hblank : skipBlanks (' ' :: (write level a ++ rest)) = write level a ++ rest := by
    rw [skipBlanks, List.dropWhile_cons_of_pos (by decide)]
    exact hplain.skipBlanks_write level rest
  rw [writeText_append, readFields, readText_flatMap_writeChar]
  simp only [bind, Except.bind, skipBlanks_cons (c := ':') rfl, hblank, hread bound rest hbound,
    String.ofList_toList]
  rfl

theorem readFields_write {level outer bound : Nat} {known fields : List (String × Json)}
    {name : String} {a : Json} (hread : ∀ field ∈ (name, a) :: fields, ReadsBack level field.2)
    (hplain : ∀ field ∈ (name, a) :: fields, field.2.IsPlain)
    (hnodup : ((known ++ (name, a) :: fields).map Prod.fst).Nodup)
    (hbound : (write level a).length + (writeFields level fields).length < bound)
    (rest : List Char) :
    readFields bound known (writeText name ++ (':' :: ' ' :: (write level a ++
      (writeFields level fields ++ (newLine outer ++ '}' :: rest))))) =
        .ok (known ++ (name, a) :: fields, rest) := by
  have hnew : name ∉ known.map Prod.fst := notMem_of_nodup_append hnodup
  have hfirst : ReadsBack level a := hread (name, a) List.mem_cons_self
  have hvalue : a.IsPlain := hplain (name, a) List.mem_cons_self
  induction fields generalizing known name a bound with
  | nil =>
    obtain _ | bound := bound
    · omega
    have hfits : (write level a).length ≤ bound := by omega
    rw [readFields_field hfirst hvalue hfits, writeFields, List.nil_append, skipBlanks_newLine,
      skipBlanks_cons (c := '}') rfl, setField_of_notMem hnew]
    rfl
  | cons field fields ih =>
    obtain ⟨name', b⟩ := field
    obtain _ | bound := bound
    · omega
    simp only [writeFields, List.length_append, List.length_cons] at hbound
    have hfits : (write level a).length ≤ bound := by omega
    obtain ⟨-, hread⟩ := List.forall_mem_cons.1 hread
    obtain ⟨-, hplain⟩ := List.forall_mem_cons.1 hplain
    rw [List.append_cons] at hnodup
    have hrest := @ih bound (known ++ [(name, a)]) name' b hread hplain hnodup (by omega)
      (notMem_of_nodup_append hnodup) (hread (name', b) List.mem_cons_self)
      (hplain (name', b) List.mem_cons_self)
    rw [readFields_field hfirst hvalue hfits, writeFields, setField_of_notMem hnew]
    simp only [List.cons_append, List.append_assoc, List.nil_append,
      skipBlanks_cons (c := ',') rfl, skipBlanks_newLine, skipBlanks_writeText]
    rw [hrest, List.append_assoc]
    rfl

/-- A word or a text literal reads back. -/
theorem readsBack_of_readScalar {level : Nat} {a : Json} {c : Char} {text : List Char}
    (hwrite : write level a = c :: text) (hlist : c ≠ '[') (hobject : c ≠ '{')
    (h : ∀ rest, readScalar (write level a ++ rest) = .ok (a, rest)) : ReadsBack level a := by
  intro bound rest hbound
  obtain _ | bound := bound
  · simp [hwrite] at hbound
  rw [← h rest, hwrite, List.cons_append, readValue]
  · exact fun _ heq => hlist (List.cons.inj heq).1
  · exact fun _ heq => hobject (List.cons.inj heq).1

/-- A value reads back, whatever follows it. -/
theorem IsPlain.readsBack {a : Json} (h : a.IsPlain) (level : Nat) : ReadsBack level a := by
  induction h generalizing level with
  | null =>
    exact readsBack_of_readScalar (by rw [write]; rfl) (by decide) (by decide) fun rest => by
      rw [write]
      rfl
  | bool b =>
    cases b with
    | false =>
      exact readsBack_of_readScalar (by rw [write]; rfl) (by decide) (by decide) fun rest => by
        rw [write]
        rfl
    | true =>
      exact readsBack_of_readScalar (by rw [write]; rfl) (by decide) (by decide) fun rest => by
        rw [write]
        rfl
  | string text =>
    exact readsBack_of_readScalar (by rw [write]; rfl) (by decide) (by decide) fun rest => by
      rw [write]
      exact readScalar_writeText text rest
  | @list items hplain ih =>
    intro bound rest hbound
    cases items with
    | nil =>
      rw [write_list_nil] at hbound ⊢
      obtain _ | bound := bound
      · simp at hbound
      rw [List.cons_append, List.singleton_append, readValue, skipBlanks_cons (by decide)]
      rfl
    | cons a items =>
      rw [write] at hbound ⊢
      simp only [List.cons_append, List.append_assoc, List.length_cons, List.length_append,
        List.nil_append] at hbound ⊢
      obtain _ | bound := bound
      · omega
      have hitems := @readItems_write (level + 1) level bound a items
        (fun b hb => ih b hb (level + 1)) hplain (by omega) rest
      obtain ⟨c, s, hwrite, -, hclose, -⟩ :=
        (hplain a List.mem_cons_self).exists_write_eq_cons (level + 1)
      rw [readValue, skipBlanks_newLine, (hplain a List.mem_cons_self).skipBlanks_write]
      -- The list is not taken for an empty one, as no value begins with its closing bracket.
      rw [hwrite, List.cons_append] at hitems ⊢
      split
      · rename_i heq
        exact absurd (List.cons.inj heq).1 hclose
      · rw [hitems]
        rfl
  | @object fields hnodup hplain ih =>
    intro bound rest hbound
    cases fields with
    | nil =>
      rw [write_object_nil] at hbound ⊢
      obtain _ | bound := bound
      · simp at hbound
      rw [List.cons_append, List.singleton_append, readValue, skipBlanks_cons (by decide)]
      rfl
    | cons field fields =>
      obtain ⟨name, a⟩ := field
      rw [write] at hbound ⊢
      simp only [List.cons_append, List.append_assoc, List.length_cons, List.length_append,
        List.nil_append] at hbound ⊢
      obtain _ | bound := bound
      · omega
      have hfields := @readFields_write (level + 1) level bound [] fields name a
        (fun field hfield => ih field hfield (level + 1)) hplain hnodup (by omega) rest
      rw [readValue, skipBlanks_newLine, skipBlanks_writeText]
      -- Nor is the object, as its first name begins with a quotation mark.
      rw [writeText_append] at hfields ⊢
      split
      · rename_i heq
        exact absurd (List.cons.inj heq).1 (by decide)
      · rw [hfields]
        rfl

/-- The text of a value holds that value. -/
theorem IsPlain.parse_write {a : Json} (h : a.IsPlain) : parse (write 0 a) = .ok a := by
  have hread := h.readsBack 0 (2 * (write 0 a).length + 2) [] (by omega)
  have hblanks := h.skipBlanks_write 0 []
  rw [List.append_nil] at hread hblanks
  obtain ⟨c, s, hwrite, -, -, hmark⟩ := h.exists_write_eq_cons 0
  have hmark : (write 0 a).head? ≠ some (Char.ofNat 0xfeff) := by
    rw [hwrite, List.head?_cons, Ne, Option.some.injEq]
    exact hmark
  have hwhole : readWhole (write 0 a) = .ok a := by
    rw [readWhole, if_neg hmark, hblanks]
    simp only [pure, Except.pure, bind, Except.bind, hread]
    rfl
  rw [parse, hwhole]
  rfl

end SchemaArtifacts.Json
