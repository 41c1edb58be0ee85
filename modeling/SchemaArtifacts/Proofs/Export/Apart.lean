import SchemaArtifacts.Proofs.Export.Artifact
import SchemaArtifacts.Proofs.Export.OutputPath
import SchemaArtifacts.Proofs.Path.Spelling

/-!
# Artifacts keep out of each other's way

Whatever a name looks like, the last component of the path of its artifact ends in the suffix of the
format. No suffix is the end of another one, nor of the ending of temporary files. So the artifacts of
two formats never have one path, and no artifact has the path of a temporary file, even if the
caches have different roots.

## Main definitions

* `Cache.Places` — the path of the artifact of a name

## Main results

* `Cache.Places.suffix_lastComponent` — the last component of the path ends in the suffix
* `Name.toString_temporary_of_locate` — the path of a temporary file, as a text
* `Cache.artifact_paths_apart` — artifacts of two formats, and temporary files
-/

namespace SchemaArtifacts

open SchemaArtifacts.Path Disk

/-- The artifact of a name in one of the two formats has this path in a cache. -/
structure Cache.Places (c : Cache) (format : Format) (name : String) (path : AbsolutePath) :
    Prop where
  known : format = .typeScript ∨ format = .javaScript
  path : ∃ out, format.outName (.string name) = .ok out ∧ c.locate out = .ok path

/-- Texts differ if neither of their ends is an end of the other. -/
theorem ne_of_suffix {s t : String} {a b : List Char} (hs : a <:+ s.toList) (ht : b <:+ t.toList)
    (hab : ¬ a <:+ b) (hba : ¬ b <:+ a) : s ≠ t := by
  rintro rfl
  exact (List.suffix_or_suffix_of_suffix hs ht).elim hab hba

/-- The temporary file of a name has the path of the name, with the ending of temporary files behind
it. -/
theorem Name.toString_temporary_of_locate {root path : AbsolutePath} {name : String}
    (h : locate root name = .ok path) :
    (Cache.temporary path).toString = path.toString ++ temporarySuffix := by
  obtain ⟨ss, hss, rfl⟩ := exists_segments_of_locate h
  have hne := (shape_of_segments hss).2.2
  rw [← AbsolutePath.toString_join_suffixed root hne]
  obtain ⟨init, last, rfl, hsuffixed⟩ := suffixed_eq_of_ne_nil hne temporarySuffix.toList
  rw [hsuffixed, List.map_append, List.map_singleton, temporary_join, List.map_append,
    List.map_singleton, String.ofList_append, String.ofList_toList]

namespace Cache.Places

variable {c : Cache} {format : Format} {name : String} {path : AbsolutePath}

/-- The last component of the path of an artifact ends in the suffix of the format. -/
theorem suffix_lastComponent (h : c.Places format name path) :
    format.suffix.toList <:+ lastComponent path.toString.toList := by
  obtain ⟨out, hout, hpath⟩ := h.path
  obtain rfl : name ++ format.suffix = out := Except.ok.inj hout
  obtain ⟨ss, hss, rfl⟩ := Name.exists_segments_of_locate hpath
  obtain ⟨init, start, rfl⟩ := Name.exists_last_of_segments (Name.isExtension_of_format h.known) hss
  have hlast := Name.isClean_of_segments hss (start ++ format.suffix.toList) (by simp)
  obtain ⟨head, htext, -⟩ := exists_toString_join_concat c.root (init.map String.ofList)
    (String.ofList (start ++ format.suffix.toList))
  rw [List.map_append, List.map_singleton, htext, String.toList_ofList,
    lastComponent_append head hlast.no_slash]
  exact List.suffix_append start _

theorem suffix_toString (h : c.Places format name path) :
    format.suffix.toList <:+ path.toString.toList :=
  h.suffix_lastComponent.trans (lastComponent_suffix _)

theorem toString_temporary (h : c.Places format name path) :
    (temporary path).toString = path.toString ++ temporarySuffix := by
  obtain ⟨_, -, hpath⟩ := h.path
  exact Name.toString_temporary_of_locate hpath

/-- What ends like a temporary file is no artifact. -/
theorem ne_temporary (h : c.Places format name path) (other : String) :
    path.toString ≠ other ++ temporarySuffix := by
  have hother : temporarySuffix.toList <:+ (other ++ temporarySuffix).toList := by
    rw [String.toList_append]
    exact List.suffix_append _ _
  have hsuffix := h.suffix_toString
  rcases h.known with rfl | rfl
  · exact ne_of_suffix hsuffix hother (by decide) (by decide)
  · exact ne_of_suffix hsuffix hother (by decide) (by decide)

end Cache.Places

/-- The last component of the path of an artifact ends in the suffix of its format, for every name
that has one. Hence the artifacts of two names in two formats have different paths, and no artifact
has the path of an artifact with the ending of temporary files, which is the path of the temporary file
through which that artifact is written. -/
theorem Cache.artifact_paths_apart :
    (∀ (c : Cache) (format : Format) (name : String) (path : AbsolutePath),
      c.Places format name path →
        format.suffix.toList <:+ lastComponent path.toString.toList) ∧
    (∀ (c c' : Cache) (name name' : String) (path path' : AbsolutePath),
      c.Places .typeScript name path → c'.Places .javaScript name' path' →
        path.toString ≠ path'.toString) ∧
    ∀ (c c' : Cache) (format format' : Format) (name name' : String) (path path' : AbsolutePath),
      c.Places format name path → c'.Places format' name' path' →
        path.toString ≠ path'.toString ++ ".~tmp" ∧
          (temporary path').toString = path'.toString ++ ".~tmp" := by
  refine ⟨fun _ _ _ _ h => h.suffix_lastComponent, ?_, ?_⟩
  · intro c c' name name' path path' h h'
    exact ne_of_suffix h.suffix_toString h'.suffix_toString (by decide) (by decide)
  · intro c c' format format' name name' path path' h h'
    exact ⟨h.ne_temporary path'.toString, h'.toString_temporary⟩

/-- A URI that ends in a separator, a URL without a path, and a name that is read as a path for its line
feed. -/
theorem Cache.artifact_paths_apart_shapes : ∃ (c : Cache) (uri url line : AbsolutePath),
    c.root = .ofString { parts := ["w"] } "../x//./y" ∧
      c.Places .typeScript "urn:a:" uri ∧ lastComponent uri.toString.toList = ".d.ts".toList ∧
      c.Places .javaScript "//HTTP://h" url ∧ ".js".toList <:+ lastComponent url.toString.toList ∧
      c.Places .javaScript "urn:a\n" line ∧ ".js".toList <:+ lastComponent line.toString.toList ∧
      uri.toString ≠ url.toString ∧ url.toString ≠ line.toString ++ ".~tmp" ∧
      (temporary line).toString = line.toString ++ ".~tmp" := by
  let c : Cache := { root := .ofString { parts := ["w"] } "../x//./y" }
  have huri : c.Places .typeScript "urn:a:" (c.root.join ["urn", "a", ".d.ts"]) :=
    ⟨.inl rfl, "urn:a:.d.ts", rfl, by decide +kernel⟩
  have hurl : c.Places .javaScript "//HTTP://h" (c.root.join ["h.js"]) :=
    ⟨.inr rfl, "//HTTP://h.js", rfl, by decide +kernel⟩
  have hline : c.Places .javaScript "urn:a\n" (c.root.join ["urn:a\n.js"]) :=
    ⟨.inr rfl, "urn:a\n.js", rfl, by decide +kernel⟩
  obtain ⟨hends, hformats, htemporary⟩ := artifact_paths_apart
  obtain ⟨hne, htext⟩ := htemporary _ _ _ _ _ _ _ _ hurl hline
  exact ⟨c, _, _, _, rfl, huri, by decide +kernel, hurl, hends _ _ _ _ hurl, hline,
    hends _ _ _ _ hline, hformats _ _ _ _ _ _ huri hurl, hne, htext⟩

end SchemaArtifacts
