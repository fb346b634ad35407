import ContentAddressed.Proofs.Files.Tree
import ContentAddressed.Proofs.FileTree.RoundTrip
import ContentAddressed.Proofs.Store.Levels
import ContentAddressed.Proofs.Store.Local
import ContentAddressed.Store.Open
import Mathlib.Data.Set.Insert

/-!
# Directories that processes share

Each process writes to a memory of its own and flushes it to the directory, where files that are
there already stay as they are. As long as no two writes pair one name with different bytes, the
directory has the files of all writes and nothing else.
-/

namespace ContentAddressed

abbrev Writes := Set (String × Bytes)

namespace Writes

/-- Writes that a directory can take: a name has bytes of its own, at least one of them. -/
structure Coherent (w : Writes) : Prop where
  unique : ∀ name bs bs', (name, bs) ∈ w → (name, bs') ∈ w → bs = bs'
  nonempty : ∀ name bs, (name, bs) ∈ w → bs ≠ []
  writable : ∀ name bs, (name, bs) ∈ w → Disk.Writable name

def add (t : Writes) (writes : List (String × Bytes)) : Writes := t ∪ {e | e ∈ writes}

@[simp]
theorem add_nil (t : Writes) : t.add [] = t := by
  simp [add]

theorem add_cons (t : Writes) (e : String × Bytes) (writes : List (String × Bytes)) :
    t.add (e :: writes) = (insert e t).add writes := by
  ext e'
  simp only [add, Set.mem_union, Set.mem_insert_iff, Set.mem_ofPred_eq, List.mem_cons]
  tauto

theorem add_append (t : Writes) (writes more : List (String × Bytes)) :
    t.add (writes ++ more) = (t.add writes).add more := by
  induction writes generalizing t with
  | nil => simp
  | cons e writes ih => rw [List.cons_append, add_cons, add_cons, ih]

theorem subset_add (t : Writes) (writes : List (String × Bytes)) : t ⊆ t.add writes :=
  Set.subset_union_left

theorem mem_add_of_mem (t : Writes) {writes : List (String × Bytes)} {e : String × Bytes}
    (h : e ∈ writes) : e ∈ t.add writes :=
  Or.inr h

end Writes

namespace Folder

/-- A folder with the files of some writes and nothing else. -/
def IsOf (t : Writes) (f : Folder) : Prop :=
  ∀ e, e ∈ f ↔ ∃ name bs, (name, bs) ∈ t ∧ e = (.text name, .file bs)

variable {f : Folder} {t w : Writes} {name : String} {bs : Bytes}

theorem IsOf.mem_iff (h : f.IsOf t) : (.text name, .file bs) ∈ f ↔ (name, bs) ∈ t := by
  rw [h]
  simp

theorem exists_mem_insert_iff {e : FileName × Entry} :
    (∃ name' bs', (name', bs') ∈ insert (name, bs) t ∧ e = (.text name', .file bs')) ↔
      e = (.text name, .file bs) ∨
        ∃ name' bs', (name', bs') ∈ t ∧ e = (.text name', .file bs') := by
  constructor
  · rintro ⟨name', bs', hmem, rfl⟩
    rcases Set.mem_insert_iff.mp hmem with heq | hmem
    · cases heq
      exact Or.inl rfl
    · exact Or.inr ⟨name', bs', hmem, rfl⟩
  · rintro (rfl | ⟨name', bs', hmem, rfl⟩)
    · exact ⟨name, bs, Set.mem_insert _ _, rfl⟩
    · exact ⟨name', bs', Set.mem_insert_of_mem _ hmem, rfl⟩

section Coherent

variable (hw : w.Coherent) (ht : t ⊆ w) (h : f.IsOf t)
include hw ht h

theorem IsOf.eq_of_find? (hmem : (name, bs) ∈ w) {e : Entry}
    (he : f.find? (.text name) = some e) : e = .file bs ∧ (name, bs) ∈ t := by
  obtain ⟨name', bs', hmem', heq⟩ := (h _).mp (mem_of_find? he)
  cases heq
  obtain rfl := hw.unique _ _ _ (ht hmem') hmem
  exact ⟨rfl, hmem'⟩

theorem IsOf.find?_eq (hmem : (name, bs) ∈ t) : f.find? (.text name) = some (.file bs) := by
  obtain ⟨e, he⟩ : ∃ e, f.find? (.text name) = some e :=
    Option.isSome_iff_exists.mp (List.lookup_isSome_iff.mpr ⟨_, h.mem_iff.mpr hmem, by simp⟩)
  rw [he, (h.eq_of_find? hw ht (ht hmem) he).1]

theorem IsOf.holds_iff (hmem : (name, bs) ∈ w) : f.holds (.text name) ↔ (name, bs) ∈ t := by
  rw [holds]
  constructor
  · intro hholds
    cases hfind : f.find? (.text name) with
    | none => simp [hfind] at hholds
    | some e => exact (h.eq_of_find? hw ht hmem hfind).2
  · intro hmem'
    simpa [h.find?_eq hw ht hmem', Entry.isEmpty] using hw.nonempty _ _ hmem

theorem IsOf.holds_of_mem {e : FileName × Entry} (he : e ∈ f) : f.holds e.1 := by
  obtain ⟨name, bs, hmem, rfl⟩ := (h e).mp he
  exact (h.holds_iff hw ht (ht hmem)).mpr hmem

/-- Setting the file of a write takes away no other one. -/
theorem IsOf.set (hmem : (name, bs) ∈ w) :
    (f.set (.text name) (.file bs)).IsOf (insert (name, bs) t) := by
  intro e
  rw [exists_mem_insert_iff, ← h e, Folder.set, List.mem_cons, erase, List.mem_filter]
  refine or_congr_right' fun hne => and_iff_left_of_imp fun he => ?_
  obtain ⟨name', bs', hmem', rfl⟩ := (h e).mp he
  -- an entry under the same name would be the one that is set
  have hname : name' ≠ name := by
    rintro rfl
    exact hne (by rw [hw.unique _ _ _ hmem (ht hmem')])
  simpa using hname

end Coherent

end Folder

namespace Backing

variable {m : Backing} {t w : Writes} {name : String} {bs : Bytes}

section Coherent

variable (hw : w.Coherent) (ht : t ⊆ w) (hm : m.IsLocal) (h : m.contents.IsOf t)
include hw ht hm h

theorem has_iff_of_isOf (hmem : (name, bs) ∈ w) : m.has name ↔ (name, bs) ∈ t := by
  cases hm with
  | memory m =>
    have hhas : m.table.contains name = true ↔
        ∃ e, m.table.toFolder.find? (.text name) = some e := by
      rw [NameTable.find?_toFolder, NameTable.contains]
      cases m.table.find? name <;> simp
    constructor
    · intro hcontains
      obtain ⟨e, he⟩ := hhas.mp hcontains
      exact (h.eq_of_find? hw ht hmem he).2
    · intro hmem'
      exact hhas.mpr ⟨_, h.find?_eq hw ht hmem'⟩
  | disk d => exact h.holds_iff hw ht hmem

theorem isOf_keep (hmem : (name, bs) ∈ w) :
    (m.keep name bs).contents.IsOf (insert (name, bs) t) := by
  rw [keep]
  split
  · next hhas =>
    rwa [Set.insert_eq_of_mem ((has_iff_of_isOf hw ht hm h hmem).mp hhas)]
  · next hnew =>
    rw [contents_write hm (by simpa using hnew)]
    exact h.set hw ht hmem

theorem serves_of_isOf (hmem : (name, bs) ∈ t) : m.Serves name bs :=
  ⟨(has_iff_of_isOf hw ht hm h (ht hmem)).mpr hmem, h.find?_eq hw ht hmem⟩

end Coherent

theorem exists_keep_disk (d : Disk) (name : String) (bs : Bytes) :
    ∃ f, (disk d).keep name bs = disk { d with folder := f } := by
  rw [keep]
  split
  · exact ⟨d.folder, rfl⟩
  · exact ⟨_, rfl⟩

theorem exists_keep_memory (m : Memory) (name : String) (bs : Bytes) :
    ∃ m', (memory m).keep name bs = memory m' := by
  rw [keep]
  split
  · exact ⟨m, rfl⟩
  · exact ⟨_, rfl⟩

end Backing

namespace Store

variable {t u w : Writes} {writes : List (String × Bytes)}

/-- The chain of a process: its own memory in front of a disk. -/
def overDisk (d : Disk) (journal : List String) (m : Memory) : Store Backing :=
  cached (Backing.disk d) journal (base (Backing.memory m) [])

theorem isLocal_overDisk (d : Disk) (journal : List String) (m : Memory) :
    (overDisk d journal m).IsLocal :=
  isLocal_cached.mpr ⟨.disk d, isLocal_base.mpr (.memory m)⟩

theorem storeEach_overDisk (hw : w.Coherent) (d : Disk) (journal : List String) {m : Memory}
    (ht : t ⊆ w) (hm : m.table.toFolder.IsOf t) (hwrites : ∀ e ∈ writes, e ∈ w) :
    ∃ m', (overDisk d journal m).storeEach writes =
        (.ok (), overDisk d (journal ++ writes.map Prod.fst) m') ∧
      m'.table.toFolder.IsOf (t.add writes) := by
  induction writes generalizing journal m t with
  | nil => exact ⟨m, by simp [storeEach], by simpa using hm⟩
  | cons e writes ih =>
    obtain ⟨name, bs⟩ := e
    obtain ⟨hmem, hrest⟩ := List.forall_mem_cons.mp hwrites
    obtain ⟨m₁, hkeep⟩ := Backing.exists_keep_memory m name bs
    have hput := Backing.put_eq (.memory m) (hw.writable _ _ hmem) bs
    have hm₁ := Backing.isOf_keep hw ht (.memory m) hm hmem
    rw [hkeep] at hput hm₁
    obtain ⟨m', hstore, hm'⟩ := ih (journal ++ [name]) (Set.insert_subset hmem ht) hm₁ hrest
    refine ⟨m', ?_, t.add_cons _ _ ▸ hm'⟩
    have hbytes : (overDisk d journal m).storeBytes name bs =
        (.ok (), overDisk d (journal ++ [name]) m₁) := by
      simp only [overDisk, storeBytes, hput]
    rw [storeEach, hbytes]
    simpa using hstore

/-- Draining brings what the memory has to the disk. -/
theorem drain_overDisk (hw : w.Coherent) {d : Disk} {m : Memory} (ht : t ⊆ w) (hu : u ⊆ w)
    (hd : d.folder.IsOf t) (hm : m.table.toFolder.IsOf u) (hwrites : ∀ e ∈ writes, e ∈ u) :
    ∃ f : Folder, drain (Backing.disk d) (writes.map Prod.fst) (base (Backing.memory m) []) =
        (.ok (), Backing.disk { d with folder := f }, [], base (Backing.memory m) []) ∧
      f.IsOf (t.add writes) := by
  induction writes generalizing d t with
  | nil => exact ⟨d.folder, rfl, by simpa using hd⟩
  | cons e writes ih =>
    obtain ⟨name, bs⟩ := e
    obtain ⟨hmem, hrest⟩ := List.forall_mem_cons.mp hwrites
    have hname := hw.writable _ _ (hu hmem)
    obtain ⟨f₁, hkeep⟩ := Backing.exists_keep_disk d name bs
    have hput := Backing.put_eq (.disk d) hname bs
    have hd₁ := Backing.isOf_keep hw ht (.disk d) hd (hu hmem)
    rw [hkeep] at hput hd₁
    obtain ⟨v, hget, rfl⟩ := Backing.get_of_serves (.memory m) hname
      (Backing.serves_of_isOf hw hu (.memory m) hm hmem)
    obtain ⟨f, hdrain, hf⟩ := ih (Set.insert_subset (hu hmem) ht) hd₁ hrest
    refine ⟨f, ?_, t.add_cons _ _ ▸ hf⟩
    have hretrieve : (base (Backing.memory m) []).retrieve name =
        (.ok v, base (Backing.memory m) []) := by
      simp only [retrieve, hget]
    rw [List.map_cons, drain, hretrieve]
    simp only [hput]
    exact hdrain

/-- Storing some writes and flushing them succeeds, and adds them to the directory. -/
theorem storeEach_flush (hw : w.Coherent) {d : Disk} (ht : t ⊆ w) (hd : d.folder.IsOf t)
    (hwrites : ∀ e ∈ writes, e ∈ w) :
    ∃ s m f, (overDisk d [] {}).storeEach writes = (.ok (), s) ∧
      s.flush = (.ok (), overDisk { d with folder := f } [] m) ∧ f.IsOf (t.add writes) := by
  have hempty : ({} : Memory).table.toFolder.IsOf ∅ := by
    intro e
    simp [NameTable.toFolder]
  obtain ⟨m, hstore, hm⟩ := storeEach_overDisk hw d [] (Set.empty_subset w) hempty hwrites
  have hu : Writes.add ∅ writes ⊆ w := Set.union_subset (Set.empty_subset w) hwrites
  obtain ⟨f, hdrain, hf⟩ :=
    drain_overDisk hw ht hu hd hm fun e he => Writes.mem_add_of_mem ∅ he
  refine ⟨_, m, f, hstore, ?_, hf⟩
  rw [List.nil_append, overDisk, flush_of_drain_ok hdrain, flush]
  rfl

theorem retrieve_overDisk (hw : w.Coherent) {d : Disk} (ht : t ⊆ w) (hd : d.folder.IsOf t)
    {name : String} {bs : Bytes} (hmem : (name, bs) ∈ t) :
    ∃ v, (overDisk d [] {}).retrieve name = (.ok v, overDisk d [] {}) ∧ v.bytes = bs := by
  obtain ⟨v, hget, hv⟩ := Backing.get_of_serves (.disk d) (hw.writable _ _ (ht hmem))
    (Backing.serves_of_isOf hw ht (.disk d) hd hmem)
  refine ⟨v, ?_, hv⟩
  have hcache : (base (Backing.memory {}) []).retrieve name =
      (.error (.noSuchBlock name), base (Backing.memory {}) []) := rfl
  rw [overDisk, retrieve, hcache]
  simp only [hget]

theorem serves_overDisk (hw : w.Coherent) {d : Disk} (ht : t ⊆ w) (hd : d.folder.IsOf t)
    (hwrites : ∀ e ∈ writes, e ∈ t) : (overDisk d [] {}).Serves writes := by
  have hsame (names : List String) : (overDisk d [] {}).afterReads names = overDisk d [] {} :=
    afterReads_eq (isLocal_overDisk d [] {}) none none names
  intro names _ e he
  rw [hsame]
  obtain ⟨v, hget, hv⟩ := retrieve_overDisk hw ht hd (hwrites e he)
  exact ⟨v, _, hget, hv⟩

end Store

namespace FileSystem

variable {fs : FileSystem} {path : FilePath} {before after : Folder} {t u w : Writes}

/-- Filling a directory with the files of some writes adds those files. -/
theorem mem_folder_fill (hw : w.Coherent) (hbefore : before.IsOf t) (ht : t ⊆ w)
    (htu : t ⊆ u) (hu : u ⊆ w) (hfs : (fs.folder path).IsOf u)
    (hafter : ∀ e ∈ after, ∃ name bs, (name, bs) ∈ w ∧ e = (.text name, .file bs))
    (e : FileName × Entry) :
    e ∈ (fs.fill path before after).folder path ↔ e ∈ fs.folder path ∨ e ∈ after := by
  induction after generalizing fs u with
  | nil => simp [fill]
  | cons e₁ after ih =>
    obtain ⟨⟨name, bs, hmem, rfl⟩, hrest⟩ := List.forall_mem_cons.mp hafter
    obtain ⟨fs₁, hstep, hfs₁⟩ : ∃ fs₁ : FileSystem,
        (if before.holds (.text name) then fs else fs.set (path ++ [.text name]) (.file bs)) =
          fs₁ ∧ (fs₁.folder path).IsOf (insert (name, bs) u) := by
      refine ⟨_, rfl, ?_⟩
      split
      · next hholds =>
        have hold := htu ((hbefore.holds_iff hw ht hmem).mp hholds)
        rwa [Set.insert_eq_of_mem hold]
      · intro e
        rw [mem_folder_set]
        exact hfs.set hw hu hmem e
    have hadd : e ∈ fs₁.folder path ↔ e = (.text name, .file bs) ∨ e ∈ fs.folder path := by
      rw [hfs₁, hfs, Folder.exists_mem_insert_iff]
    rw [fill, List.foldl_cons, hstep, List.mem_cons, or_left_comm, ← or_assoc, ← hadd]
    exact ih (htu.trans (Set.subset_insert _ _)) (Set.insert_subset hmem hu) hfs₁ hrest

/-- A directory that is filled with more writes has the files of all of them. -/
theorem isOf_fill (hw : w.Coherent) (htu : t ⊆ u) (hu : u ⊆ w) (hfs : (fs.folder path).IsOf t)
    (hbefore : before.IsOf t) (hafter : after.IsOf u) :
    ((fs.fill path before after).folder path).IsOf u := by
  intro e
  have hfiles : ∀ e ∈ after, ∃ name bs, (name, bs) ∈ w ∧ e = (.text name, .file bs) := by
    intro e he
    obtain ⟨name, bs, hmem, rfl⟩ := (hafter e).mp he
    exact ⟨name, bs, hu hmem, rfl⟩
  rw [mem_folder_fill hw hbefore (htu.trans hu) (Set.Subset.refl t) (htu.trans hu) hfs hfiles e,
    hafter e, hfs e]
  constructor
  · rintro (⟨name, bs, hmem, rfl⟩ | he)
    · exact ⟨name, bs, htu hmem, rfl⟩
    · exact he
  · exact Or.inr

theorem fill_of_holds (h : ∀ e ∈ after, before.holds e.1) : fs.fill path before after = fs := by
  induction after with
  | nil => rfl
  | cons e after ih =>
    obtain ⟨he, hrest⟩ := List.forall_mem_cons.mp h
    rw [fill, List.foldl_cons, if_pos he]
    exact ih hrest

end FileSystem

end ContentAddressed
