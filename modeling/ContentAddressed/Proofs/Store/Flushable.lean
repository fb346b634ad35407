import ContentAddressed.Proofs.Store.Draining
import ContentAddressed.Proofs.Store.Shared
import ContentAddressed.Proofs.Store.Writing

/-!
# Which writes a flush brings to a directory

A memory takes every name, and the disk behind it only names that a file of its directory may have.
So a flush brings writes to the directory as far as the first name that is not one of those; this
name then waits at the head of the journal, with all names that were written after it.
-/

namespace ContentAddressed

/-! ## Tables and folders that keep what they have -/

namespace NameTable

def keepAll (t : NameTable) (writes : List (String × Bytes)) : NameTable :=
  writes.foldl (fun t e => t.keep e.1 e.2) t

/-- The first bytes that are written under a name are kept, unless there were some before. -/
theorem find?_keepAll (t : NameTable) (writes : List (String × Bytes)) (name : String) :
    (t.keepAll writes).find? name = (t.find? name).or (find? writes name) := by
  induction writes generalizing t with
  | nil => simp [keepAll, find?]
  | cons e writes ih =>
    obtain ⟨other, bs⟩ := e
    change ((t.keep other bs).keepAll writes).find? name = _
    rw [ih]
    by_cases h : name = other
    · subst h
      have hfirst : find? ((name, bs) :: writes) name = some bs := List.lookup_cons_self
      rw [find?_keep_self, hfirst]
      cases t.find? name <;> rfl
    · have hrest : find? ((other, bs) :: writes) name = find? writes name :=
        lookup_cons_of_ne h bs _
      rw [find?_keep_of_ne h, hrest]

theorem find?_keepAll_nil (writes : List (String × Bytes)) :
    (keepAll [] writes).find? = find? writes := by
  funext name
  exact find?_keepAll [] writes name

end NameTable

namespace Folder

variable {f f' : Folder} {name : String} {names : List String} {bs : Bytes}
  {files : String → Option Bytes}

/-- Set a file, unless the name has an entry that is not empty. -/
def keep (f : Folder) (name : String) (bs : Bytes) : Folder :=
  if f.holds (.text name) then f else f.set (.text name) (.file bs)

/-- A folder that got the files of some names, except where there was an entry that is not empty. -/
def Filled (f : Folder) (names : List String) (files : String → Option Bytes) (f' : Folder) :
    Prop :=
  ∀ name, f'.find? (.text name) =
    if name ∈ names ∧ ¬ f.holds (.text name) then (files name).map .file
    else f.find? (.text name)

theorem Filled.nil (f : Folder) (files : String → Option Bytes) : f.Filled [] files f := by
  intro name
  simp

theorem Filled.cons (hbs : files name = some bs) (h : (f.keep name bs).Filled names files f') :
    f.Filled (name :: names) files f' := by
  intro other
  rw [h other, keep]
  by_cases hname : other = name
  · subst hname
    by_cases hholds : f.holds (.text other)
    · simp [hholds]
    · simp [hholds, find?_set_self, hbs]
  · have hne : FileName.text other ≠ .text name := by simpa using hname
    by_cases hholds : f.holds (.text name)
    · simp [hholds, hname]
    · simp [hholds, hname, find?_set_of_ne hne, holds_set_of_ne hne]

end Folder

namespace Backing

variable {name : String}

theorem put_disk (h : Disk.Writable name) (d : Disk) (bs : Bytes) :
    Medium.put (disk d) name bs = (.ok (), disk { d with folder := d.folder.keep name bs }) := by
  rw [put_eq (.disk d) h]
  by_cases hholds : d.folder.holds (.text name)
  · simp [keep, has, Folder.keep, hholds]
  · simp [keep, has, Folder.keep, hholds, write, Disk.write]

theorem put_disk_of_not_accepts (h : Disk.accepts name = false) (d : Disk) (bs : Bytes) :
    Medium.put (disk d) name bs = (.error (.invalidArgument (.fileName name)), disk d) := by
  change (d.put name bs).map id disk = _
  simp [Disk.put, Disk.checkName, h]

theorem accepts_memory (m : Memory) (writes : List (String × Bytes)) :
    Accepts (memory m) writes (memory ⟨m.table.keepAll writes⟩) := by
  induction writes generalizing m with
  | nil => exact .nil _
  | cons e writes ih => exact .cons rfl (ih ⟨m.table.keep e.1 e.2⟩)

end Backing

namespace Store

variable {d : Disk} {m : Memory} {names : List String} {name : String} {bs : Bytes}

theorem retrieve_memory (h : m.table.find? name = some bs) :
    (base (Backing.memory m) []).retrieve name = (.ok ⟨bs, false⟩, base (Backing.memory m) []) := by
  have hget : m.get name = (.ok ⟨bs, false⟩, m) := by
    rw [Memory.get, h]
  have hwrapped : Medium.get (Backing.memory m) name = (.ok ⟨bs, false⟩, .memory m) :=
    congrArg (Prod.map id Backing.memory) hget
  simp only [retrieve, hwrapped]

/-- Names that the directory may have are brought over from a memory that has them. -/
theorem exists_filled (hnames : ∀ name ∈ names, Disk.Writable name)
    (hfound : ∀ name ∈ names, (m.table.find? name).isSome) (left : List String) :
    ∃ f, d.folder.Filled names m.table.find? f ∧
      drain (Backing.disk d) (names ++ left) (base (Backing.memory m) []) =
        drain (Backing.disk { d with folder := f }) left (base (Backing.memory m) []) := by
  induction names generalizing d with
  | nil => exact ⟨d.folder, .nil _ _, rfl⟩
  | cons name names ih =>
    obtain ⟨hname, hnames⟩ := List.forall_mem_cons.mp hnames
    obtain ⟨hbs, hfound⟩ := List.forall_mem_cons.mp hfound
    obtain ⟨bs, hbs⟩ := Option.isSome_iff_exists.mp hbs
    obtain ⟨f, hf, hdrain⟩ := @ih { d with folder := d.folder.keep name bs } hnames hfound
    refine ⟨f, hf.cons hbs, Eq.trans ?_ hdrain⟩
    exact drain_append (.cons (retrieve_memory hbs) (.nil _))
      (.cons (Backing.put_disk hname d bs) (.nil _)) _

/-! ## Chains over a directory -/

/-- A chain that is opened over a directory and no peer. -/
inductive OpensOver (fs : FileSystem) : Store Backing → Prop
  | cachedDisk {directory : String} {threshold : Nat} {s : Store Backing} {fs' : FileSystem} :
    cachedDisk fs directory threshold = .ok (s, fs') → OpensOver fs s
  | openChain {config : StoreConfig} {peer : Peer} {directory : String} {s : Store Backing}
    {fs' : FileSystem} : config.directory = some directory → config.remote = none →
      openChain config peer fs = .ok (s, fs') → OpensOver fs s

theorem exists_overDisk_of_cachedDisk {fs fs' : FileSystem} {directory : String} {threshold : Nat}
    {s : Store Backing} (h : cachedDisk fs directory threshold = .ok (s, fs')) :
    ∃ d, s = overDisk d [] {} := by
  obtain ⟨⟨disk, fs₁⟩, -, hs⟩ := Result.bind_eq_ok_iff.mp h
  cases hs
  exact ⟨disk, rfl⟩

theorem OpensOver.exists_overDisk {fs : FileSystem} {s : Store Backing} (h : OpensOver fs s) :
    ∃ d, s = overDisk d [] {} := by
  cases h with
  | cachedDisk h => exact exists_overDisk_of_cachedDisk h
  | @openChain config peer directory _ fs' hdirectory hremote h =>
    rw [Store.openChain, hdirectory, hremote] at h
    obtain ⟨⟨near, fs₁⟩, hnear, hs⟩ := Result.bind_eq_ok_iff.mp h
    cases hs
    exact exists_overDisk_of_cachedDisk hnear

theorem opensOver_blocks : OpensOver {} (overDisk { path := "blocks" } [] {}) := by
  have hopen : cachedDisk {} "blocks" 1048576 =
      .ok (overDisk { path := "blocks" } [] {}, ⟨[([.text "blocks"], .folder)]⟩) := rfl
  exact .cachedDisk hopen

theorem storeEach_overDisk_eq (d : Disk) (writes : List (String × Bytes)) :
    (overDisk d [] {}).storeEach writes =
      (.ok (), overDisk d (writes.map Prod.fst) ⟨NameTable.keepAll [] writes⟩) :=
  storeEach_of_accepted (Backing.accepts_memory {} writes)

variable {writes : List (String × Bytes)}

theorem isSome_find?_written {e : String × Bytes} (he : e ∈ writes) :
    ((NameTable.keepAll [] writes).find? e.1).isSome := by
  rw [NameTable.find?_keepAll_nil]
  exact List.lookup_isSome_iff.mpr ⟨e, he, BEq.rfl⟩

/-- Some of the writes, with names that the directory may have, are brought over. -/
theorem exists_brought {before : List (String × Bytes)}
    (hshort : ∀ e ∈ writes, e.1.utf8ByteSize ≤ FileName.limit) (hsub : before ⊆ writes)
    (haccepts : ∀ e ∈ before, Disk.accepts e.1) (d : Disk) (left : List String) :
    ∃ f, d.folder.Filled (before.map Prod.fst) (NameTable.find? writes) f ∧
      drain (Backing.disk d) (before.map Prod.fst ++ left)
          (base (Backing.memory ⟨NameTable.keepAll [] writes⟩) []) =
        drain (Backing.disk { d with folder := f }) left
          (base (Backing.memory ⟨NameTable.keepAll [] writes⟩) []) := by
  rw [← NameTable.find?_keepAll_nil]
  apply exists_filled
  · exact List.forall_mem_map.mpr fun e he =>
      Disk.writable_of_accepts (haccepts e he) (hshort e (hsub he))
  · exact List.forall_mem_map.mpr fun e he => isSome_find?_written (hsub he)

/-- Accepted writes are flushed as far as the directory may have their names. If it may have all of
them, the flush succeeds and nothing waits any longer. Otherwise it fails with the first name that
the directory cannot have, as does every later flush, and this name waits on with all names that
were written after it. In both cases the names before are in the directory: where there was no
entry, or an empty file, there is a file with the first bytes that were written under the name. -/
theorem flush_of_accepted_writes {fs : FileSystem} {s s' : Store Backing} (hopen : OpensOver fs s)
    (hshort : ∀ e ∈ writes, e.1.utf8ByteSize ≤ FileName.limit)
    (hstore : s.storeEach writes = (.ok (), s')) :
    ((∀ e ∈ writes, Disk.accepts e.1) → ∃ s'', s'.flush = (.ok (), s'') ∧
      (∀ level ∈ s''.levels, level.journal = []) ∧
      s.medium.contents.Filled (writes.map Prod.fst) (NameTable.find? writes) s''.medium.contents) ∧
    ∀ before name bs after, writes = before ++ (name, bs) :: after →
      (∀ e ∈ before, Disk.accepts e.1) → Disk.accepts name = false →
      ∃ s'', s'.flush = (.error (.invalidArgument (.fileName name)), s'') ∧
        s''.flush = (.error (.invalidArgument (.fileName name)), s'') ∧
        s''.journal = name :: after.map Prod.fst ∧
        s.medium.contents.Filled (before.map Prod.fst) (NameTable.find? writes)
          s''.medium.contents := by
  obtain ⟨d, rfl⟩ := hopen.exists_overDisk
  rw [storeEach_overDisk_eq] at hstore
  cases hstore
  constructor
  · intro haccepts
    obtain ⟨f, hf, hdrain⟩ := exists_brought hshort (List.Subset.refl _) haccepts d []
    rw [List.append_nil] at hdrain
    refine ⟨overDisk { d with folder := f } [] ⟨NameTable.keepAll [] writes⟩, ?_, ?_, hf⟩
    · rw [overDisk, flush_of_drain_ok (hdrain.trans rfl), flush]
      rfl
    · simp [overDisk, levels, journal]
  · rintro before name bs after rfl haccepts hname
    obtain ⟨f, hf, hdrain⟩ := exists_brought hshort (List.subset_append_left _ _) haccepts d
      (name :: after.map Prod.fst)
    -- the name is read from the memory and refused by the disk, now and at every later flush
    have hmem : (name, bs) ∈ before ++ (name, bs) :: after := by simp
    obtain ⟨bs', hbs'⟩ := Option.isSome_iff_exists.mp (isSome_find?_written hmem)
    have hblocked := drain_of_refused (retrieve_memory hbs')
      (Backing.put_disk_of_not_accepts hname { d with folder := f } bs') (after.map Prod.fst)
    refine ⟨overDisk { d with folder := f } (name :: after.map Prod.fst)
      ⟨NameTable.keepAll [] (before ++ (name, bs) :: after)⟩, ?_, ?_, rfl, hf⟩
    · rw [List.map_append, List.map_cons, overDisk]
      exact flush_of_drain_error (hdrain.trans hblocked)
    · exact flush_of_drain_error hblocked

/-- The memory takes a name that the directory cannot have, and what was written after it does not
reach the directory either. -/
theorem hidden_name_stays_at_head :
    let writes : List (String × Bytes) := [(".a", [1]), ("b", [2])]
    ∃ s s' s'', OpensOver {} s ∧ (∀ e ∈ writes, e.1.utf8ByteSize ≤ FileName.limit) ∧
      s.storeEach writes = (.ok (), s') ∧
      s'.flush = (.error (.invalidArgument (.fileName ".a")), s'') ∧
      s''.journal = [".a", "b"] ∧ s''.medium.contents = [] := by
  intro writes
  let s' := overDisk { path := "blocks" } [".a", "b"] ⟨[("b", [2]), (".a", [1])]⟩
  exact ⟨_, s', s', opensOver_blocks, by decide, rfl, flush_of_drain_error rfl, rfl, rfl⟩

/-- A name in the middle that the directory cannot have. -/
theorem flush_of_accepted_writes_hidden :
    let writes : List (String × Bytes) := [("a", [1]), (".b", [2]), ("c", [3])]
    ∃ s s', OpensOver {} s ∧ (∀ e ∈ writes, e.1.utf8ByteSize ≤ FileName.limit) ∧
      s.storeEach writes = (.ok (), s') ∧
      ∃ s'', s'.flush = (.error (.invalidArgument (.fileName ".b")), s'') ∧
        s''.flush = (.error (.invalidArgument (.fileName ".b")), s'') ∧
        s''.journal = [".b", "c"] ∧
        s.medium.contents.Filled ["a"] (NameTable.find? writes) s''.medium.contents := by
  intro writes
  have hshort : ∀ e ∈ writes, e.1.utf8ByteSize ≤ FileName.limit := by decide
  obtain ⟨-, hrefused⟩ := flush_of_accepted_writes opensOver_blocks hshort rfl
  exact ⟨_, _, opensOver_blocks, hshort, rfl,
    hrefused [("a", [1])] ".b" [2] [("c", [3])] rfl (by decide) (by decide)⟩

end Store

end ContentAddressed
