import ContentAddressed.Files.Tree
import ContentAddressed.Proofs.Medium.Keeping
import ContentAddressed.Proofs.Result

/-!
# What changes a tree of files

Making directories takes nothing away and writing a file replaces that file only, so paths are still
found, and what was written is read.
-/

namespace ContentAddressed

theorem Text.endsWith_iff {s t : String} : s.endsWith t ↔ t.toList <:+ s.toList := by
  rw [String.endsWith_eq_endsWith_toSlice, String.Slice.endsWith_string_iff, String.copy_toSlice]

theorem Text.endsWith_append (s t : String) : (s ++ t).endsWith t := by
  rw [endsWith_iff, String.toList_append]
  exact List.suffix_append _ _

namespace FileSystem

variable {fs fs' : FileSystem} {path other : FilePath} {entry : Entry}

theorem mem_folder {name : FileName} :
    (name, entry) ∈ fs.folder path ↔ (path ++ [name], entry) ∈ fs.entries := by
  rw [folder, List.mem_filterMap]
  constructor
  · rintro ⟨⟨below, e⟩, hmem, h⟩
    split at h
    · next hbelow =>
      obtain ⟨last, hlast, heq⟩ := Option.map_eq_some_iff.mp h
      cases heq
      obtain ⟨hlen, htake⟩ := hbelow
      have hsplit := List.dropLast_append_getLast? name hlast
      rw [List.dropLast_eq_take, hlen, Nat.add_sub_cancel, htake] at hsplit
      exact hsplit ▸ hmem
    · cases h
  · intro h
    refine ⟨_, h, ?_⟩
    simp

theorem mem_entries_set {e : FilePath × Entry} :
    e ∈ (fs.set path entry).entries ↔ e = (path, entry) ∨ e ∈ fs.entries ∧ e.1 ≠ path := by
  simp [set]

theorem mem_folder_set {name : FileName} {e : FileName × Entry} :
    e ∈ (fs.set (path ++ [name]) entry).folder path ↔ e ∈ (fs.folder path).set name entry := by
  obtain ⟨n, e⟩ := e
  rw [mem_folder, mem_entries_set, Folder.set, List.mem_cons, Folder.erase, List.mem_filter,
    mem_folder]
  simp

/-- An entry that is set no deeper than a directory is none of its own entries. -/
theorem mem_folder_set_of_le (h : other.length ≤ path.length) {e : FileName × Entry} :
    e ∈ (fs.set other entry).folder path ↔ e ∈ fs.folder path := by
  obtain ⟨n, e⟩ := e
  have hne : path ++ [n] ≠ other := by
    rintro rfl
    rw [List.length_append, List.length_singleton] at h
    omega
  rw [mem_folder, mem_folder, mem_entries_set]
  simp [hne]

theorem find?_set_self (h : path ≠ []) : (fs.set path entry).find? path = some entry := by
  rw [find?, if_neg (by simpa using h)]
  exact List.lookup_cons_self

theorem find?_set_of_ne (h : other ≠ path) : (fs.set path entry).find? other = fs.find? other := by
  rw [find?, find?]
  split
  · rfl
  · exact (lookup_cons_of_ne h entry _).trans (lookup_filter_of_ne h _)

/-- The directories of one tree are directories of another one. -/
def KeepsFolders (fs fs' : FileSystem) : Prop :=
  ∀ path, fs.find? path = some .folder → fs'.find? path = some .folder

theorem KeepsFolders.resolve (h : fs.KeepsFolders fs') {text : String}
    (hr : fs.resolve text = .ok path) : fs'.resolve text = .ok path := by
  rw [FileSystem.resolve] at hr ⊢
  split at hr
  · cases hr
  · next hempty =>
    rw [if_neg hempty]
    refine Result.foldlM_eq_ok_of_imp (fun at' part next hstep => ?_) hr
    split at hstep
    · cases hstep
    · cases hstep
    · next hfolder =>
      rw [h at' hfolder]
      exact hstep

theorem KeepsFolders.reach (h : fs.KeepsFolders fs') (hr : fs.reach path = .ok ()) :
    fs'.reach path = .ok () := by
  refine Result.forM_eq_ok_iff.mpr fun n hn => ?_
  have hcheck := Result.forM_eq_ok_iff.mp hr n hn
  split at hcheck
  · next hfolder => rw [h _ hfolder]
  · cases hcheck
  · cases hcheck

/-- What a tree has, another one has as well. -/
def Extends (fs fs' : FileSystem) : Prop :=
  ∀ path entry, fs.find? path = some entry → fs'.find? path = some entry

theorem Extends.readAt (h : fs.Extends fs') {text : String} {content : Bytes}
    (hr : fs.readAt text = .ok content) : fs'.readAt text = .ok content := by
  have hfolders : fs.KeepsFolders fs' := fun path => h path .folder
  obtain ⟨path, hpath, hr⟩ := Result.bind_eq_ok_iff.mp hr
  obtain ⟨⟨⟩, hnames, hr⟩ := Result.bind_eq_ok_iff.mp hr
  obtain ⟨⟨⟩, hreach, hr⟩ := Result.bind_eq_ok_iff.mp hr
  refine Result.bind_eq_ok_iff.mpr ⟨path, hfolders.resolve hpath, ?_⟩
  refine Result.bind_eq_ok_iff.mpr ⟨(), hnames, ?_⟩
  refine Result.bind_eq_ok_iff.mpr ⟨(), hfolders.reach hreach, ?_⟩
  split at hr
  · next hfile =>
    rw [h _ _ hfile]
    exact hr
  · cases hr
  · cases hr

/-- Making directories keeps what is there, and the entries of the one that is made. -/
theorem makeFolders_effect (h : fs.makeFolders path = .ok fs') :
    fs.Extends fs' ∧ ∀ e, e ∈ fs'.folder path ↔ e ∈ fs.folder path := by
  obtain ⟨⟨⟩, -, h⟩ := Result.bind_eq_ok_iff.mp h
  refine Result.foldlM_induction (p := fun done => fs.Extends done ∧
    ∀ e, e ∈ done.folder path ↔ e ∈ fs.folder path) ?_ ⟨fun _ _ => id, fun _ => Iff.rfl⟩ h
  rintro done n next ⟨hextends, hentries⟩ hstep
  split at hstep
  · cases hstep
    exact ⟨hextends, hentries⟩
  · cases hstep
  · next hnone =>
    cases hstep
    refine ⟨fun p entry hp => ?_, fun e => ?_⟩
    · have hne : p ≠ path.take n := by
        rintro rfl
        rw [hextends _ _ hp] at hnone
        cases hnone
      rw [find?_set_of_ne hne]
      exact hextends p entry hp
    · rw [mem_folder_set_of_le (List.length_take_le' n path)]
      exact hentries e

theorem strip_eq {text : String} (h : ¬ text.endsWith "/") :
    String.ofList (text.toList.reverse.dropWhile (· == '/')).reverse = text := by
  have hkeep : text.toList.reverse.dropWhile (· == '/') = text.toList.reverse := by
    cases hrev : text.toList.reverse with
    | nil => rfl
    | cons c cs =>
      refine List.dropWhile_cons_of_neg fun hc => h ?_
      obtain rfl : c = '/' := by simpa using hc
      have htext : text = String.ofList cs.reverse ++ "/" := by
        rw [← String.toList_inj, String.toList_append, String.toList_ofList,
          ← List.reverse_reverse text.toList, hrev, List.reverse_cons]
        rfl
      rw [htext]
      exact Text.endsWith_append _ _
  rw [hkeep, List.reverse_reverse, String.ofList_toList]

/-- What was written to a file is read from it. -/
theorem readAt_of_writeAt {text : String} {content : Bytes}
    (h : fs.writeAt text content = .ok fs') : fs'.readAt text = .ok content := by
  obtain ⟨path, hpath, h⟩ := Result.bind_eq_ok_iff.mp h
  obtain ⟨hslash, h⟩ := Result.guard_eq_ok_iff.mp h
  obtain ⟨⟨⟩, hnames, h⟩ := Result.bind_eq_ok_iff.mp h
  obtain ⟨⟨⟩, hreach, h⟩ := Result.bind_eq_ok_iff.mp h
  rw [strip_eq hslash] at hpath
  split at h
  · cases h
  · next hnot =>
    cases h
    have hne : path ≠ [] := by
      rintro rfl
      exact hnot rfl
    have hfolders : fs.KeepsFolders (fs.set path (.file content)) := by
      intro other hother
      rwa [find?_set_of_ne]
      rintro rfl
      exact hnot hother
    refine Result.bind_eq_ok_iff.mpr ⟨path, hfolders.resolve hpath, ?_⟩
    refine Result.bind_eq_ok_iff.mpr ⟨(), hnames, ?_⟩
    refine Result.bind_eq_ok_iff.mpr ⟨(), hfolders.reach hreach, ?_⟩
    rw [find?_set_self hne]

end FileSystem

end ContentAddressed
