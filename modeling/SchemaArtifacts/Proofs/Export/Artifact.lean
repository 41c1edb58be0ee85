import SchemaArtifacts.Format.Label
import SchemaArtifacts.Proofs.Disk.Walk
import SchemaArtifacts.Proofs.Export.Finding
import SchemaArtifacts.Proofs.Name.Ending
import SchemaArtifacts.Proofs.Name.Import

/-!
# The artifact of a document

The artifact of a document lies below the root, in directories with plain names, and its own name
ends in the suffix of the format. So it is never the temporary file of another artifact.

## Main definitions

* `Document.HasArtifact` — the name and the path of the artifact of a document
* `AbsolutePath.IsLasting` — a path below a root, by plain names, of a file that is not temporary

## Main results

* `Document.HasArtifact.reads` — what it takes for a document to have an artifact
* `Document.HasArtifact.exists_isLasting` — where the artifact of a document lies
-/

namespace SchemaArtifacts

open Disk

/-- The name and the path of the artifact of a document. -/
structure Document.HasArtifact (root : AbsolutePath) (format : Format) (doc : Document)
    (out : String) (path : AbsolutePath) : Prop where
  start : doc.startBelow root format = .ok out
  path : Name.locate root out = .ok path

namespace Document

variable {root path : AbsolutePath} {format : Format} {doc : Document} {out : String}

theorem HasArtifact.unique (h : doc.HasArtifact root format out path) {out' : String}
    {path' : AbsolutePath} (h' : doc.HasArtifact root format out' path') :
    out' = out ∧ path' = path := by
  cases h.start.symm.trans h'.start
  cases h.path.symm.trans h'.path
  exact ⟨rfl, rfl⟩

/-- The artifact depends on the name of a document alone. -/
theorem HasArtifact.of_name_eq (h : doc.HasArtifact root format out path) {doc' : Document}
    (hname : doc'.name = doc.name) : doc'.HasArtifact root format out path := by
  refine ⟨?_, h.path⟩
  have hstart := h.start
  unfold startBelow homeBelow at hstart ⊢
  rwa [hname]

/-- A document with an artifact has a text for its name. The name and the name of the artifact both
have segments, and the directory of the document is that of its bare name. -/
theorem HasArtifact.reads (h : doc.HasArtifact root format out path) :
    ∃ name bare artifact, doc.name = .string name ∧ Name.Reads format.suffix name bare artifact ∧
      path = root.join (artifact.map String.ofList) ∧
      doc.name.locateBelow root = .ok (root.join (bare.map String.ofList)) := by
  obtain ⟨hout, p, hbelow⟩ := startBelow_eq_ok_iff.1 h.start
  obtain ⟨name, hname, rfl⟩ := Format.outName_eq_ok_iff.1 hout
  obtain ⟨artifact, hartifact, rfl⟩ := Name.exists_segments_of_locate h.path
  rw [hname, Json.locateBelow_string, Result.mapError_eq_ok] at hbelow
  obtain ⟨bare, hsegments, rfl⟩ := Name.exists_segments_of_locate hbelow
  refine ⟨name, bare, artifact, hname, ⟨hsegments, hartifact⟩, rfl, ?_⟩
  rw [hname, Json.locateBelow_string, hbelow]
  rfl

end Document

/-- A path below a root, through directories with plain names, of a file that is not temporary. -/
structure AbsolutePath.IsLasting (root path : AbsolutePath) (dir : List String) (name : String) :
    Prop where
  path : path = root.join (dir ++ [name])
  plain : ∀ n ∈ dir ++ [name], IsPlain n
  lasting : Sweep.isTemporary name = false

theorem isTemporary_append (name : String) : Sweep.isTemporary (name ++ temporarySuffix) = true := by
  rw [Sweep.isTemporary, List.isSuffixOf_iff_suffix, String.toList_append]
  exact List.suffix_append _ _

theorem temporary_join (root : AbsolutePath) (dir : List String) (name : String) :
    Cache.temporary (root.join (dir ++ [name])) = root.join (dir ++ [name ++ temporarySuffix]) := by
  simp [Cache.temporary, AbsolutePath.parent, AbsolutePath.name, AbsolutePath.join,
    ← List.append_assoc]

theorem isPlain_append_temporarySuffix (name : String) : IsPlain (name ++ temporarySuffix) := by
  have hlong : 5 ≤ (name ++ temporarySuffix).toList.length := by
    rw [String.toList_append, List.length_append]
    exact Nat.le_add_left 5 _
  refine ⟨?_, ?_, ?_⟩
  · intro h
    simp [h] at hlong
  · intro h
    rw [h] at hlong
    exact absurd hlong (by decide)
  · intro h
    rw [h] at hlong
    exact absurd hlong (by decide)

theorem plain_concat_temporarySuffix {dir : List String} {name : String}
    (h : ∀ n ∈ dir ++ [name], IsPlain n) : ∀ n ∈ dir ++ [name ++ temporarySuffix], IsPlain n := by
  intro n hn
  rcases List.mem_append.1 hn with hn | hn
  · exact h n (List.mem_append_left _ hn)
  · rw [List.mem_singleton.1 hn]
    exact isPlain_append_temporarySuffix name

/-- What ends in a suffix with another last character is no name of a temporary file. -/
theorem isTemporary_ofList_append {suffix : List Char} {c : Char} (hlast : suffix.getLast? = some c)
    (hc : c ≠ 'p') (start : List Char) :
    Sweep.isTemporary (String.ofList (start ++ suffix)) = false := by
  by_contra h
  rw [Bool.not_eq_false, Sweep.isTemporary, List.isSuffixOf_iff_suffix, String.toList_ofList] at h
  obtain ⟨before, heq⟩ := h
  have hend := congrArg List.getLast? heq
  rw [List.getLast?_append, List.getLast?_append, hlast] at hend
  exact hc (Option.some.inj hend).symm

theorem Path.IsClean.isPlain {part : List Char} (h : IsClean part) :
    IsPlain (String.ofList part) := by
  refine ⟨?_, ?_, ?_⟩
  · intro heq
    exact h.ne_nil (String.ofList_injective heq)
  · intro heq
    exact h.ne_dot (String.ofList_injective heq)
  · intro heq
    exact h.ne_dots (String.ofList_injective heq)

/-- Where the artifact of a document lies. -/
theorem Document.HasArtifact.exists_isLasting {root path : AbsolutePath} {format : Format}
    (hformat : format = .typeScript ∨ format = .javaScript) {doc : Document} {out : String}
    (h : doc.HasArtifact root format out path) : ∃ dir name, root.IsLasting path dir name := by
  obtain ⟨name, bare, artifact, -, hreads, rfl, -⟩ := h.reads
  have hext := Name.isExtension_of_format hformat
  have hlast : format.suffix.toList.getLast? = some 's' := by
    rcases hformat with rfl | rfl <;> rfl
  obtain ⟨init, start, hsegs⟩ := Name.exists_last_of_segments hext hreads.artifact
  have hclean := Name.isClean_of_segments hreads.artifact
  rw [hsegs] at hclean
  refine ⟨init.map String.ofList, String.ofList (start ++ format.suffix.toList), ?_, ?_, ?_⟩
  · rw [hsegs, List.map_append, List.map_singleton]
  · intro n hn
    rw [← List.map_singleton (f := String.ofList), ← List.map_append, List.mem_map] at hn
    obtain ⟨part, hpart, rfl⟩ := hn
    exact (hclean part hpart).isPlain
  · exact isTemporary_ofList_append hlast (by decide) start

namespace AbsolutePath.IsLasting

variable {root path other : AbsolutePath} {dir dir' : List String} {name name' : String}

theorem temporary (h : root.IsLasting path dir name) :
    Cache.temporary path = root.join (dir ++ [name ++ temporarySuffix]) := by
  rw [h.path, temporary_join]

theorem parent (h : root.IsLasting path dir name) : path.parent = root.join dir := by
  simp [h.path, AbsolutePath.parent, AbsolutePath.join, ← List.append_assoc]

theorem plain_temporary (h : root.IsLasting path dir name) :
    ∀ n ∈ dir ++ [name ++ temporarySuffix], IsPlain n :=
  plain_concat_temporarySuffix h.plain

/-- No temporary file lies where an artifact does. -/
theorem temporary_ne (h' : root.IsLasting other dir' name') (top dir : List String)
    (name : String) : top ++ (dir ++ [name ++ temporarySuffix]) ≠ top ++ (dir' ++ [name']) := by
  intro heq
  obtain ⟨-, hlast⟩ := List.append_inj' (List.append_cancel_left heq) rfl
  have hname : name ++ temporarySuffix = name' := List.singleton_inj.1 hlast
  have hnot := h'.lasting
  rw [← hname, isTemporary_append] at hnot
  cases hnot

/-- Artifacts with different paths lie in different places, and so do their temporary files. -/
theorem ne_of_ne (h : root.IsLasting path dir name) (h' : root.IsLasting other dir' name')
    (hne : path ≠ other) (top : List String) : top ++ (dir ++ [name]) ≠ top ++ (dir' ++ [name']) ∧
      top ++ (dir ++ [name ++ temporarySuffix]) ≠ top ++ (dir' ++ [name' ++ temporarySuffix]) := by
  constructor
  · intro heq
    rw [h.path, h'.path, List.append_cancel_left heq] at hne
    exact hne rfl
  · intro heq
    obtain ⟨hdir, hlast⟩ := List.append_inj' (List.append_cancel_left heq) rfl
    have hname := congrArg String.toList (List.singleton_inj.1 hlast)
    rw [String.toList_append, String.toList_append] at hname
    have hsame : name = name' := String.toList_injective (List.append_cancel_right hname)
    rw [h.path, h'.path, hdir, hsame] at hne
    exact hne rfl

end AbsolutePath.IsLasting
end SchemaArtifacts
