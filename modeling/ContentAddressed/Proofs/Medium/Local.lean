import ContentAddressed.Proofs.Fingerprint
import ContentAddressed.Proofs.Medium.Keeping
import ContentAddressed.Proofs.Text.Utf8

/-!
# Memory and disk as folders

Memory and the directory of a disk are both seen as a folder. A name that counts as there is left
alone by a write and answered by a read; a write under any other name sets one entry.
-/

namespace ContentAddressed

namespace NameTable

def toFolder (t : NameTable) : Folder := t.map fun e => (.text e.1, .file e.2)

theorem find?_toFolder (t : NameTable) (name : String) :
    t.toFolder.find? (.text name) = (t.find? name).map Entry.file := by
  induction t with
  | nil => rfl
  | cons e t ih =>
    obtain ⟨other, bs⟩ := e
    by_cases h : name = other
    · simp [toFolder, find?, Folder.find?, h]
    · simp only [toFolder, List.map_cons, Folder.find?, find?] at ih ⊢
      rw [lookup_cons_of_ne h, lookup_cons_of_ne (by simpa using h), ih]

theorem toFolder_cons {t : NameTable} {name : String} (h : t.contains name = false) (bs : Bytes) :
    toFolder ((name, bs) :: t) = t.toFolder.set (.text name) (.file bs) := by
  have hnone : t.lookup name = none := by simpa [contains, find?] using h
  have herase : t.toFolder.erase (.text name) = t.toFolder := by
    apply List.filter_eq_self.mpr
    simp only [toFolder, List.mem_map, forall_exists_index, and_imp]
    rintro _ e he rfl
    have hne := List.lookup_eq_none_iff.mp hnone e he
    simp at hne
    simpa using Ne.symm hne
  rw [Folder.set, herase]
  rfl

end NameTable

theorem Folder.mem_of_find? {f : Folder} {name : FileName} {e : Entry}
    (h : f.find? name = some e) : (name, e) ∈ f :=
  mem_of_lookup h

theorem Folder.mem_of_mem_set {f : Folder} {name : FileName} {entry : Entry}
    {e : FileName × Entry} (h : e ∈ f.set name entry) : e = (name, entry) ∨ e ∈ f := by
  rw [set, List.mem_cons] at h
  exact h.imp_right List.mem_of_mem_filter

theorem Fingerprint.writable_encode (fp : Fingerprint) : Disk.Writable fp.encode := by
  have hdigest : ∀ c ∈ Base64.fileName.encodeList fp.digest, c ≠ '/' ∧ c ≠ '\\' ∧ c ≠ '\x00' := by
    intro c hc
    obtain ⟨hprint, -, hslash, hback, -⟩ := Base64.mem_fileName_encodeList hc
    refine ⟨hslash, hback, ?_⟩
    rintro rfl
    exact absurd hprint (by decide)
  have haccepts : Disk.accepts fp.encode := by
    rw [Disk.accepts, toList_encode]
    cases fp.algorithm <;> simpa [DigestAlgorithm.name, and_assoc] using hdigest
  have hsize := Utf8.utf8ByteSize_printable fp.printable_encode
  have hshort := fp.length_encode_le
  apply Disk.writable_of_accepts haccepts
  rw [hsize, FileName.limit]
  omega

namespace Backing

inductive IsLocal : Backing → Prop
  | memory (m : Memory) : IsLocal (memory m)
  | disk (d : Disk) : IsLocal (disk d)

inductive IsMemory : Backing → Prop
  | memory (m : Memory) : IsMemory (memory m)

/-- The entries of a memory, or of the directory of a disk. -/
def contents : Backing → Folder
  | memory m => m.table.toFolder
  | disk d => d.folder
  | remote _ | faulty _ => []

/-- Whether a name counts as there; a disk does not count files of length zero. -/
def has (m : Backing) (name : String) : Bool :=
  match m with
  | memory m => m.table.contains name
  | disk d => d.folder.holds (.text name)
  | remote _ | faulty _ => false

/-- The medium with one more file, in place of what a disk has under the name. -/
def write (m : Backing) (name : String) (bs : Bytes) : Backing :=
  match m with
  | memory m => memory ⟨(name, bs) :: m.table⟩
  | disk d => disk (d.write name bs)
  | remote m => remote m
  | faulty m => faulty m

def keep (m : Backing) (name : String) (bs : Bytes) : Backing :=
  if m.has name then m else m.write name bs

variable {m : Backing} {name other : String} {bs : Bytes}

theorem put_eq (hm : m.IsLocal) (hname : Disk.Writable name) (bs : Bytes) :
    Medium.put m name bs = (.ok (), m.keep name bs) := by
  cases hm with
  | memory m =>
    change (Except.ok (), memory ⟨m.table.keep name bs⟩) = _
    by_cases h : m.table.contains name
    · simp [NameTable.keep, keep, has, h]
    · simp [NameTable.keep, keep, has, h, write]
  | disk d =>
    change (d.put name bs).map id disk = _
    by_cases h : d.folder.holds (.text name)
    · simp [Disk.put, hname.1, hname.2, keep, has, h]
    · simp [Disk.put, hname.1, hname.2, keep, has, h, write, Disk.write]

theorem IsLocal.keep (hm : m.IsLocal) (name : String) (bs : Bytes) : (m.keep name bs).IsLocal := by
  rw [Backing.keep]
  split
  · exact hm
  · cases hm with
    | memory m => exact .memory _
    | disk d => exact .disk _

theorem IsMemory.keep (hm : m.IsMemory) (name : String) (bs : Bytes) :
    (m.keep name bs).IsMemory := by
  rw [Backing.keep]
  split
  · exact hm
  · cases hm with
    | memory m => exact .memory _

theorem contents_write (hm : m.IsLocal) (h : m.has name = false) (bs : Bytes) :
    (m.write name bs).contents = m.contents.set (.text name) (.file bs) := by
  cases hm with
  | memory m => exact NameTable.toFolder_cons h bs
  | disk d => rfl

theorem has_write_of_ne (hne : other ≠ name) : (m.write name bs).has other = m.has other := by
  cases m with
  | memory m =>
    simp only [has, write, NameTable.contains, NameTable.find?]
    rw [lookup_cons_of_ne hne]
  | disk d =>
    exact Folder.holds_set_of_ne (by simpa using hne)
  | remote m => rfl
  | faulty m => rfl

theorem get_state (hm : m.IsLocal) (name : String) : (Medium.get m name).2 = m := by
  cases hm with
  | memory m => exact congrArg memory (congrArg Prod.snd (m.get_eq name))
  | disk d => rfl

theorem exists_find?_of_has (hm : m.IsLocal) (h : m.has name) :
    ∃ e, m.contents.find? (.text name) = some e := by
  cases hm with
  | memory m =>
    obtain ⟨bs, hbs⟩ := Option.isSome_iff_exists.mp h
    exact ⟨.file bs, by rw [contents, NameTable.find?_toFolder, hbs]; rfl⟩
  | disk d =>
    rw [has, Folder.holds] at h
    cases hfind : d.folder.find? (.text name) with
    | none => simp [hfind] at h
    | some e => exact ⟨e, hfind⟩

/-! ## Bytes that are served -/

/-- A name that is there, with these bytes. -/
structure Serves (m : Backing) (name : String) (bs : Bytes) : Prop where
  has : m.has name
  file : m.contents.find? (.text name) = some (.file bs)

theorem Serves.keep (hm : m.IsLocal) (h : m.Serves name bs) (other : String) (bs' : Bytes) :
    (m.keep other bs').Serves name bs := by
  by_cases hother : m.has other
  · rw [Backing.keep, if_pos hother]
    exact h
  · have hne : name ≠ other := by
      rintro rfl
      exact hother h.has
    rw [Backing.keep, if_neg hother]
    constructor
    · rw [has_write_of_ne hne]
      exact h.has
    · rw [contents_write hm (by simpa using hother), Folder.find?_set_of_ne (by simpa using hne)]
      exact h.file

/-- Memory serves what is written under a new name, and a disk unless it is empty. -/
theorem serves_write (hm : m.IsLocal) (hnew : m.has name = false) (hbs : bs ≠ [] ∨ m.IsMemory) :
    (m.write name bs).Serves name bs := by
  have hfile : (m.write name bs).contents.find? (.text name) = some (.file bs) := by
    rw [contents_write hm hnew, Folder.find?_set_self]
  refine ⟨?_, hfile⟩
  cases hm with
  | memory m => simp [has, write, NameTable.contains, NameTable.find?]
  | disk d =>
    have hne : bs ≠ [] := hbs.resolve_right (by rintro ⟨⟩)
    have hfile : (d.write name bs).folder.find? (.text name) = some (.file bs) := hfile
    simp [has, write, Folder.holds, hfile, Entry.isEmpty, hne]

theorem get_of_serves (hm : m.IsLocal) (hname : Disk.Writable name) (h : m.Serves name bs) :
    ∃ v, Medium.get m name = (.ok v, m) ∧ v.bytes = bs := by
  obtain ⟨hhas, hfile⟩ := h
  cases hm with
  | memory m =>
    rw [contents, NameTable.find?_toFolder] at hfile
    have hfind : m.table.find? name = some bs := by simpa using hfile
    refine ⟨⟨bs, false⟩, ?_, rfl⟩
    change (m.get name).map id memory = _
    simp [Memory.get, hfind]
  | disk d =>
    have hfind : d.folder.find? (.text name) = some (.file bs) := hfile
    have hne : bs ≠ [] := by simpa [has, Folder.holds, hfind, Entry.isEmpty] using hhas
    refine ⟨⟨bs, d.threshold < bs.length⟩, ?_, rfl⟩
    change (d.get name).map id disk = _
    rw [Disk.get, Disk.read_of_file hname hne hfind]
    rfl

end Backing

end ContentAddressed
