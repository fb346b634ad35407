import ContentAddressed.Proofs.Files.Tree

/-!
# Paths of block files

The file of a block stands directly in the directory of its disk, whatever text names the directory:
nothing that the disk takes as a name leads anywhere else.
-/

namespace ContentAddressed

theorem Text.splitList_eq_splitOn (sep : Char) (cs : List Char) :
    splitList sep cs = cs.splitOn sep := by
  induction cs with
  | nil => rfl
  | cons c cs ih =>
    rw [splitList, List.splitOn_cons_eq_if_modifyHead, ih]
    by_cases hc : c = sep
    · rw [if_pos hc, if_pos (beq_iff_eq.mpr hc)]
    · rw [if_neg hc, if_neg (mt beq_iff_eq.mp hc)]
      cases hpieces : cs.splitOn sep with
      | nil => exact absurd hpieces (List.splitOn_ne_nil sep cs)
      | cons piece pieces => rfl

theorem Text.split_append (sep : Char) (s t : String) :
    split sep (s ++ String.singleton sep ++ t) = split sep s ++ split sep t := by
  have hlist : (s ++ String.singleton sep ++ t).toList = s.toList ++ sep :: t.toList := by
    simp
  rw [split, hlist, splitList_eq_splitOn, List.splitOn_append_cons_self, List.map_append,
    split, split, splitList_eq_splitOn, splitList_eq_splitOn]

theorem Text.split_of_not_mem {sep : Char} {s : String} (h : sep ∉ s.toList) :
    split sep s = [s] := by
  rw [split, splitList_eq_splitOn, List.splitOn_eq_singleton h, List.map_singleton,
    String.ofList_toList]

namespace FilePath

/-- A text that is one part of a path, and leads one step down. -/
def IsPart (name : String) : Prop := '/' ∉ name.toList ∧ name ≠ "" ∧ name ≠ "." ∧ name ≠ ".."

variable {name : String}

theorem ofText_part (h : IsPart name) : ofText name = [.text name] := by
  obtain ⟨hslash, hempty, hdot, hdots⟩ := h
  simp [ofText, Text.split_of_not_mem hslash, hempty, hdot, hdots]

/-- One part behind a slash leads from where the text before it leads to the entry of that name. -/
theorem ofText_append (h : IsPart name) (text : String) :
    ofText (text ++ "/" ++ name) = ofText text ++ [.text name] := by
  obtain ⟨hslash, hempty, hdot, hdots⟩ := h
  have hsplit : Text.split '/' (text ++ "/" ++ name) = Text.split '/' text ++ [name] := by
    rw [← Text.split_of_not_mem hslash]
    exact Text.split_append '/' text name
  simp [ofText, hsplit, List.foldl_append, hempty, hdot, hdots]

theorem ofText_append_slash (text : String) : ofText (text ++ "/") = ofText text := by
  have hsplit : Text.split '/' (text ++ "/") = Text.split '/' text ++ [""] := by
    have hparts := Text.split_append '/' text ""
    rwa [String.append_empty] at hparts
  simp [ofText, hsplit, List.foldl_append]

end FilePath

namespace Disk

variable {name : String}

theorem isPart_of_accepts (h : accepts name) : FilePath.IsPart name := by
  rw [accepts] at h
  split at h
  · cases h
  · next c cs hname =>
    rw [Bool.and_eq_true, bne_iff_ne, List.all_eq_true, ← hname] at h
    obtain ⟨hdot, hall⟩ := h
    refine ⟨fun hslash => absurd (hall '/' hslash) (by decide), ?_, ?_, ?_⟩
    · rintro rfl
      cases hname
    · rintro rfl
      exact hdot (List.cons.inj hname).1.symm
    · rintro rfl
      exact hdot (List.cons.inj hname).1.symm

theorem pathOf_of_accepts (d : Disk) (h : accepts name) :
    d.pathOf name = .ok (if d.path.isEmpty || d.path.endsWith "/" then d.path ++ name
      else d.path ++ "/" ++ name) := by
  rw [pathOf, checkName, if_pos h]
  rfl

theorem exists_pathOf (d : Disk) (h : accepts name) :
    ∃ path, d.pathOf name = .ok path ∧
      FilePath.ofText path = FilePath.ofText d.path ++ [.text name] := by
  have hpart := isPart_of_accepts h
  refine ⟨_, d.pathOf_of_accepts h, ?_⟩
  by_cases hempty : d.path = ""
  · have hroot : FilePath.ofText "" = [] := rfl
    simp [hempty, hroot, FilePath.ofText_part hpart]
  · by_cases hslash : d.path.endsWith "/"
    · -- the directory is named with a slash at the end, and no second one is put behind it
      obtain ⟨dir, hdir⟩ : ∃ dir, d.path = dir ++ "/" := by
        obtain ⟨dir, hdir⟩ := Text.endsWith_iff.mp hslash
        exact ⟨String.ofList dir, by rw [← String.toList_inj, ← hdir]; simp⟩
      rw [if_pos (by simp [hslash]), hdir, FilePath.ofText_append hpart,
        FilePath.ofText_append_slash]
    · rw [if_neg (by simp [hempty, hslash]), FilePath.ofText_append hpart]

end Disk

end ContentAddressed
