import SchemaArtifacts.Proofs.Export.Artifact

/-!
# Names lead below the root

Whatever the shape of a name, its path goes on from the root by components that name entries of their
directories: none is empty, leads to a directory itself or to the one above, or holds a separator of
any system or the character that ends a text. So the path lies below the root, as a text and read
component by component, and its temporary file lies beside it.

## Main definitions

* `Name.IsComponent` — a component that names an entry of its directory
* `AbsolutePath.IsWithin` — a path goes on from another by such components

## Main results

* `Name.isWithin_of_locate` — the path of a name lies within the root
* `AbsolutePath.IsWithin.temporary` — and so does its temporary file
* `AbsolutePath.toString_join`, `AbsolutePath.normal_join_components` — what the path is as a text, and
  where it leads lexically
-/

namespace SchemaArtifacts

open SchemaArtifacts.Path Disk

/-- A component of a path that names an entry of its directory. -/
structure Name.IsComponent (part : String) : Prop where
  ne_empty : part ≠ ""
  ne_dot : part ≠ "."
  ne_dots : part ≠ ".."
  no_slash : '/' ∉ part.toList
  no_backslash : '\\' ∉ part.toList
  no_null : Char.ofNat 0 ∉ part.toList

namespace Name

variable {part : String}

theorem IsComponent.isPlain (h : IsComponent part) : IsPlain part :=
  ⟨h.ne_empty, h.ne_dot, h.ne_dots⟩

theorem IsComponent.isClean (h : IsComponent part) : IsClean part.toList := by
  refine ⟨fun heq => h.ne_empty ?_, fun heq => h.ne_dot ?_, fun heq => h.ne_dots ?_, h.no_slash⟩
  · exact String.toList_injective heq
  · exact String.toList_injective heq
  · exact String.toList_injective heq

/-- The segments of a name are components: they are clean, and what cleanness allows beyond that is
checked. -/
theorem isComponent_of_segments {name : String} {ss : List (List Char)} (h : segments name = .ok ss) :
    ∀ s ∈ ss, IsComponent (String.ofList s) := by
  intro s hs
  have hplain := (isClean_of_segments h s hs).isPlain
  have hallowed := isAllowed_of_segments h s hs
  simp only [isAllowed, Bool.and_eq_true, Bool.not_eq_true', List.contains_eq_mem,
    decide_eq_false_iff_not] at hallowed
  refine ⟨hplain.ne_empty, hplain.ne_dot, hplain.ne_dots, ?_, ?_, ?_⟩
  · rw [String.toList_ofList]
    exact (isClean_of_segments h s hs).no_slash
  · rw [String.toList_ofList]
    exact hallowed.1.2
  · rw [String.toList_ofList]
    exact hallowed.2

/-- With the ending of temporary files behind it, a component is still one. -/
theorem IsComponent.append_temporarySuffix (h : IsComponent part) :
    IsComponent (part ++ temporarySuffix) := by
  have hplain := isPlain_append_temporarySuffix part
  have hsplit : ∀ c, c ∉ part.toList → c ∉ temporarySuffix.toList →
      c ∉ (part ++ temporarySuffix).toList := by
    intro c hpart hsuffix hmem
    rw [String.toList_append] at hmem
    exact (List.mem_append.1 hmem).elim hpart hsuffix
  refine ⟨hplain.ne_empty, hplain.ne_dot, hplain.ne_dots, ?_, ?_, ?_⟩
  · exact hsplit _ h.no_slash (by decide)
  · exact hsplit _ h.no_backslash (by decide)
  · exact hsplit _ h.no_null (by decide)

end Name

namespace AbsolutePath

variable {root path : AbsolutePath} {parts : List String}

/-- A path goes on from another by one component or more. -/
def IsWithin (root path : AbsolutePath) : Prop :=
  ∃ parts : List String, parts ≠ [] ∧ (∀ part ∈ parts, Name.IsComponent part) ∧
    path = root.join parts

theorem IsWithin.exists_concat (h : root.IsWithin path) : ∃ dir name,
    path = root.join (dir ++ [name]) ∧ ∀ part ∈ dir ++ [name], Name.IsComponent part := by
  obtain ⟨parts, hne, hparts, rfl⟩ := h
  obtain rfl | ⟨dir, name, rfl⟩ := List.eq_nil_or_concat' parts
  · exact absurd rfl hne
  · exact ⟨dir, name, rfl, hparts⟩

/-- The temporary file of a path within a root lies within the root. -/
theorem IsWithin.temporary (h : root.IsWithin path) : root.IsWithin (Cache.temporary path) := by
  obtain ⟨dir, name, rfl, hparts⟩ := h.exists_concat
  refine ⟨dir ++ [name ++ temporarySuffix], by simp, fun part hpart => ?_, temporary_join root dir name⟩
  rcases List.mem_append.1 hpart with hpart | hpart
  · exact hparts part (List.mem_append_left _ hpart)
  · rw [List.mem_singleton.1 hpart]
    exact (hparts name (by simp)).append_temporarySuffix

/-- The text of a path below another is that of the other, a slash unless it ends in one already, and
the parts with slashes between them. -/
theorem toString_join (root : AbsolutePath) (hne : parts ≠ []) : (root.join parts).toString =
    root.toString ++ (if root.parts = [] then "" else "/") ++ "/".intercalate parts := by
  by_cases hroot : root.parts = []
  · simp [AbsolutePath.toString, join, hroot]
  · have hsplit : "/".intercalate (root.parts ++ parts) =
        "/".intercalate root.parts ++ "/" ++ "/".intercalate parts :=
      String.intercalate_append_of_ne_nil hroot hne
    simp only [AbsolutePath.toString, parts_join, hsplit, if_neg hroot, String.append_assoc]
    rfl

/-- Read component by component, a path within a root leads to where the root leads, and on by its own
components. -/
theorem normal_join_components (root : AbsolutePath)
    (h : ∀ part ∈ parts, Name.IsComponent part) : normal (root.join parts).toString.toList =
      normal root.toString.toList ++ parts.map String.toList := by
  have hclean : ∀ s ∈ parts.map String.toList, IsClean s := by
    intro s hs
    obtain ⟨part, hpart, rfl⟩ := List.mem_map.1 hs
    exact (h part hpart).isClean
  have hback : (parts.map String.toList).map String.ofList = parts := by simp
  rw [← normal_join root hclean, hback]

end AbsolutePath

/-- The path of a name lies within the root. -/
theorem Name.isWithin_of_locate {root path : AbsolutePath} {name : String}
    (h : locate root name = .ok path) : root.IsWithin path := by
  obtain ⟨ss, hs, rfl⟩ := exists_segments_of_locate h
  refine ⟨ss.map String.ofList, ?_, fun part hpart => ?_, rfl⟩
  · simpa using (shape_of_segments hs).2.2
  · obtain ⟨s, hmem, rfl⟩ := List.mem_map.1 hpart
    exact isComponent_of_segments hs s hmem

end SchemaArtifacts
