import ContentAddressed.Proofs.Block.Obtained
import ContentAddressed.Proofs.Store.Local
import ContentAddressed.Proofs.Store.Levels
import ContentAddressed.Proofs.Walk.Limited

/-!
# Stores that are addressed by content

Blocks carry names that match their bytes, and neither a write nor a flush ever pairs a name with
the bytes of another one. So every name in a chain that only blocks are written to matches what is
stored under it, and no walk over the chain finds bytes that do not.
-/

namespace ContentAddressed

/-- An entry of a directory whose name spells a fingerprint of the bytes. -/
def Folder.Matches (e : FileName × Entry) : Prop :=
  ∃ (fp : Fingerprint) (bs : Bytes), e = (.text fp.encode, .file bs) ∧ fp.isOf bs

namespace Backing

variable {m m' : Backing} {name : String} {fp : Fingerprint} {bs : Bytes}

/-- A local medium that holds nothing but bytes under their own fingerprints. -/
structure IsAddressed (m : Backing) : Prop where
  isLocal : m.IsLocal
  contents : ∀ e ∈ m.contents, Folder.Matches e

/-- Writing bytes under their fingerprint succeeds, and is all that a write adds. -/
theorem IsAddressed.put (h : m.IsAddressed) (hbs : fp.isOf bs) :
    ∃ m', Medium.put m fp.encode bs = (.ok (), m') ∧ m'.IsAddressed := by
  refine ⟨m.keep fp.encode bs, put_eq h.isLocal fp.writable_encode bs, h.isLocal.keep _ _, ?_⟩
  intro e he
  rw [keep] at he
  split at he
  · exact h.contents e he
  · next hnew =>
    rw [contents_write h.isLocal (by simpa using hnew)] at he
    rcases Folder.mem_of_mem_set he with rfl | he
    · exact ⟨fp, bs, rfl, hbs⟩
    · exact h.contents e he

theorem file_of_read {d : Disk} {v : StoredBytes} (h : d.read name = .ok v) :
    d.folder.find? (.text name) = some (.file v.bytes) := by
  obtain ⟨-, -, h⟩ := Result.bind_eq_ok_iff.mp h
  obtain ⟨-, h⟩ := Result.guard_eq_ok_iff.mp h
  split at h
  · cases h
  · cases h
  · next bs hfind =>
    rw [hfind]
    split at h
    · cases h
    · cases h
      rfl

/-- What a local medium answers is an entry of it. -/
theorem mem_contents_of_get (hm : m.IsLocal) {v : StoredBytes}
    (h : (Medium.get m name).1 = .ok v) : (.text name, .file v.bytes) ∈ m.contents := by
  cases hm with
  | memory m =>
    change (m.get name).1 = .ok v at h
    rw [Memory.get] at h
    split at h
    · next hfind =>
      cases h
      apply Folder.mem_of_find?
      change m.table.toFolder.find? (.text name) = _
      rw [NameTable.find?_toFolder, hfind]
      rfl
    · cases h
  | disk d =>
    exact Folder.mem_of_find? (file_of_read h)

end Backing

namespace Store

variable {s s' c : Store Backing} {m : Backing} {j : List String} {name : String}
  {fp : Fingerprint} {bs : Bytes}

/-- A chain whose media all hold nothing but bytes under their own fingerprints. -/
def IsAddressed (s : Store Backing) : Prop := ∀ level ∈ s.levels, level.medium.IsAddressed

theorem isAddressed_base : (base m j).IsAddressed ↔ m.IsAddressed := by
  simp [IsAddressed, levels, medium]

theorem isAddressed_cached : (cached m j c).IsAddressed ↔ m.IsAddressed ∧ c.IsAddressed := by
  simp [IsAddressed, levels, medium]

theorem IsAddressed.isLocal (h : s.IsAddressed) : s.IsLocal := fun level hl => (h level hl).isLocal

/-- What a chain answers is in one of its media, so it matches its name. -/
theorem IsAddressed.matches_of_retrieve (h : s.IsAddressed) {v : StoredBytes}
    (hv : (s.retrieve name).1 = .ok v) : Folder.Matches (.text name, .file v.bytes) := by
  induction s with
  | base m j =>
    have hm := isAddressed_base.mp h
    exact hm.contents _ (Backing.mem_contents_of_get hm.isLocal hv)
  | cached m j c ih =>
    obtain ⟨hm, hc⟩ := isAddressed_cached.mp h
    rw [retrieve] at hv
    split at hv
    · next hcache =>
      obtain rfl := Except.ok.inj hv
      exact ih hc (congrArg Prod.fst hcache)
    · exact hm.contents _ (Backing.mem_contents_of_get hm.isLocal hv)
    · cases hv

theorem IsAddressed.storeBytes (h : s.IsAddressed) (hbs : fp.isOf bs) :
    ∃ s', s.storeBytes fp.encode bs = (.ok (), s') ∧ s'.IsAddressed := by
  induction s with
  | base m j =>
    obtain ⟨m', hput, hm'⟩ := (isAddressed_base.mp h).put hbs
    refine ⟨base m' j, ?_, isAddressed_base.mpr hm'⟩
    rw [Store.storeBytes, hput]
  | cached m j c ih =>
    obtain ⟨hm, hc⟩ := isAddressed_cached.mp h
    obtain ⟨c', hstore, hc'⟩ := ih hc
    refine ⟨cached m (j ++ [fp.encode]) c', ?_, isAddressed_cached.mpr ⟨hm, hc'⟩⟩
    rw [Store.storeBytes, hstore]

theorem IsAddressed.storeEach {writes : List (String × Bytes)} (h : s.IsAddressed)
    (hwrites : ∀ e ∈ writes, ∃ fp : Fingerprint, fp.encode = e.1 ∧ fp.isOf e.2) :
    (s.storeEach writes).2.IsAddressed := by
  induction writes generalizing s with
  | nil => exact h
  | cons e writes ih =>
    obtain ⟨⟨fp, hname, hbs⟩, hrest⟩ := List.forall_mem_cons.mp hwrites
    obtain ⟨s', hstore, hs'⟩ := h.storeBytes hbs
    obtain ⟨name, bs⟩ := e
    obtain rfl : fp.encode = name := hname
    rw [Store.storeEach, hstore]
    exact ih hs' hrest

/-- What a journal brings to a medium was read from the cache, so it matches its name. -/
theorem isAddressed_drain (hm : m.IsAddressed) (hc : c.IsAddressed) (queue : List String) :
    (drain m queue c).2.1.IsAddressed ∧ (drain m queue c).2.2.2.IsAddressed := by
  induction queue generalizing m with
  | nil => exact ⟨hm, hc⟩
  | cons name rest ih =>
    have hstate := retrieve_state hc.isLocal name
    rw [drain]
    split <;> rename_i hr <;> rw [hr] at hstate <;> obtain rfl : _ = c := hstate
    · exact ⟨hm, hc⟩
    · exact ⟨hm, hc⟩
    · obtain ⟨fp, bs, he, hbs⟩ := hc.matches_of_retrieve (congrArg Prod.fst hr)
      simp only [Prod.mk.injEq, FileName.text.injEq, Entry.file.injEq] at he
      obtain ⟨m', hput, hm'⟩ := hm.put (he.2 ▸ hbs)
      rw [he.1, hput]
      exact ih hm'

theorem IsAddressed.flush (h : s.IsAddressed) : s.flush.2.IsAddressed := by
  fun_induction Store.flush s with
  | case1 m => exact h
  | case2 m name rest => exact isAddressed_base.mpr (isAddressed_base.mp h)
  | case3 m j c e m' j' c' hdrain =>
    obtain ⟨hm, hc⟩ := isAddressed_cached.mp h
    have hafter := isAddressed_drain hm hc j
    rw [hdrain] at hafter
    exact isAddressed_cached.mpr hafter
  | case4 m j c m' j' c' hdrain out c'' hflush ih =>
    obtain ⟨hm, hc⟩ := isAddressed_cached.mp h
    have hafter := isAddressed_drain hm hc j
    rw [hdrain] at hafter
    rw [hflush] at ih
    exact isAddressed_cached.mpr ⟨hafter.1, ih hafter.2⟩

theorem IsAddressed.atLevel {α : Type} {f : Store Backing → α × Store Backing}
    (hf : ∀ t, t.IsAddressed → (f t).2.IsAddressed) (h : s.IsAddressed) {k : Nat} {out : α}
    (hat : s.atLevel k f = some (out, s')) : s'.IsAddressed := by
  induction k generalizing s s' with
  | zero =>
    have hs := hf s h
    rwa [atLevel_zero_eq_some_iff.mp hat] at hs
  | succ k ih =>
    obtain ⟨m, j, c, c', rfl, hat', rfl⟩ := atLevel_succ_eq_some_iff.mp hat
    obtain ⟨hm, hc⟩ := isAddressed_cached.mp h
    exact isAddressed_cached.mpr ⟨hm, ih hc hat'⟩

end Store

/-! ## Histories of block operations -/

inductive BlockCall where
  | storeBlock (b : Block)
  | storeSealed (e : SealedBlock)
  | storeAll (blocks : List Block)
  | storeFile (t : FileTree)
  | flush

namespace BlockCall

def Obtained : BlockCall → Prop
  | storeBlock b => b.Obtained
  | storeSealed e => e.Obtained
  | storeAll blocks => ∀ b ∈ blocks, b.Obtained
  | storeFile t => (∀ b ∈ t.plaintext, b.Obtained) ∧ ∀ e ∈ t.encrypted, e.Obtained
  | flush => True

/-- A file that is built consists of blocks that are obtained. -/
theorem obtained_storeFile {l : FileTree.Layout} {fillers : Fillers} {data : Bytes} {t : FileTree}
    (h : l.build fillers data = .ok t) : (storeFile t).Obtained :=
  ⟨fun _ hb => .ofFile h hb, fun _ he => .ofFile h he⟩

def run (call : BlockCall) (s : Store Backing) : Outcome (Store Backing) Unit :=
  match call with
  | storeBlock b => s.storeBlock b
  | storeSealed e => s.storeSealed e
  | storeAll blocks => s.storeAll blocks
  | storeFile t => s.storeFile t
  | flush => s.flush

end BlockCall

namespace Store

variable {s : Store Backing}

theorem IsAddressed.level (h : s.IsAddressed) {level : Store Backing} (hl : level ∈ s.levels) :
    level.IsAddressed := by
  induction s with
  | base m j =>
    obtain rfl := List.mem_singleton.mp hl
    exact h
  | cached m j c ih =>
    rcases List.mem_cons.mp hl with rfl | hl
    · exact h
    · exact ih (isAddressed_cached.mp h).2 hl

end Store

end ContentAddressed
