import ContentAddressed.Medium.Finite

/-!
# Media that keep what they accept

A write that is accepted leaves bytes under its name and changes no other name; a call that fails
changes nothing. Memory, disk and the medium that fails on demand keep what they accept.
-/

namespace ContentAddressed

/-- What a write does to the bytes held: if accepted, its bytes or earlier ones are there. -/
structure PutEffect (before after : String → Option Bytes) (name : String) (bs : Bytes)
    (out : Except Error Unit) : Prop where
  accepted : out = .ok () → after name = some bs ∨ (before name).isSome ∧ after name = before name
  refused : ∀ e, out = .error e → after name = before name
  others : ∀ other, other ≠ name → after other = before other

/-- What a read tells about the bytes held, which it does not change. -/
structure GetEffect (before after : String → Option Bytes) (name : String)
    (out : Except Error StoredBytes) : Prop where
  unchanged : after = before
  found : ∀ v, out = .ok v → before name = some v.bytes
  missing : ∀ missing, out = .error (.noSuchBlock missing) → before name = none

/-- A medium that keeps what it accepts. Empty byte strings need not be kept. -/
class KeepingMedium (μ : Type) [Medium μ] where
  /-- The bytes kept under a name. -/
  held : μ → String → Option Bytes
  /-- What is true of the medium from the start. -/
  Sound : μ → Prop
  put_effect {m m' : μ} {name : String} {bs : Bytes} {out : Except Error Unit} :
    Sound m → bs ≠ [] → Medium.put m name bs = (out, m') →
      Sound m' ∧ PutEffect (held m) (held m') name bs out
  get_effect {m m' : μ} {name : String} {out : Except Error StoredBytes} :
    Sound m → Medium.get m name = (out, m') → Sound m' ∧ GetEffect (held m) (held m') name out

theorem PutEffect.of_error (held : String → Option Bytes) (name : String) (bs : Bytes) (e : Error) :
    PutEffect held held name bs (.error e) :=
  ⟨(fun h => by cases h), fun _ _ => rfl, fun _ _ => rfl⟩

theorem GetEffect.of_error {held : String → Option Bytes} {name : String} {e : Error}
    (h : ∀ missing, e = .noSuchBlock missing → held name = none) :
    GetEffect held held name (.error e) :=
  ⟨rfl, (fun _ h => by cases h), fun missing he => h missing (Except.error.inj he)⟩

theorem GetEffect.of_found {held : String → Option Bytes} {name : String} {v : StoredBytes}
    (h : held name = some v.bytes) : GetEffect held held name (.ok v) :=
  ⟨rfl, fun _ hv => Except.ok.inj hv ▸ h, fun _ h => by cases h⟩

section Lookup

variable {α β : Type} [BEq α] [LawfulBEq α] {key other : α}

theorem lookup_cons_of_ne (h : other ≠ key) (value : β) (t : List (α × β)) :
    ((key, value) :: t).lookup other = t.lookup other := by
  rw [List.lookup_cons, beq_false_of_ne h]

theorem lookup_filter_of_ne (h : other ≠ key) (t : List (α × β)) :
    (t.filter fun e => e.1 != key).lookup other = t.lookup other := by
  induction t with
  | nil => rfl
  | cons e t ih =>
    obtain ⟨k, value⟩ := e
    by_cases hk : k = key
    · subst hk
      rw [lookup_cons_of_ne h, List.filter_cons_of_neg (by simp), ih]
    · rw [List.filter_cons_of_pos (by simpa using hk), List.lookup_cons, List.lookup_cons, ih]

end Lookup

namespace NameTable

variable {t : NameTable} {name other : String} {bs : Bytes}

theorem find?_set_self (t : NameTable) (name : String) (bs : Bytes) :
    (t.set name bs).find? name = some bs :=
  List.lookup_cons_self

theorem find?_set_of_ne (h : other ≠ name) : (t.set name bs).find? other = t.find? other :=
  (lookup_cons_of_ne h bs _).trans (lookup_filter_of_ne h t)

theorem find?_keep_self (t : NameTable) (name : String) (bs : Bytes) :
    (t.keep name bs).find? name = some ((t.find? name).getD bs) := by
  rw [keep, contains]
  cases h : t.find? name with
  | none => exact List.lookup_cons_self
  | some bs' => exact h

theorem find?_keep_of_ne (h : other ≠ name) : (t.keep name bs).find? other = t.find? other := by
  rw [keep]
  split
  · rfl
  · exact lookup_cons_of_ne h bs t

end NameTable

theorem Memory.put_effect (m : Memory) (name : String) (bs : Bytes) :
    PutEffect m.table.find? (m.put name bs).2.table.find? name bs (m.put name bs).1 := by
  refine ⟨fun _ => ?_, fun e h => absurd h (by simp [put]), fun other hne => ?_⟩
  · simp only [put, NameTable.find?_keep_self]
    cases hfind : m.table.find? name with
    | none => exact Or.inl rfl
    | some bs' => exact Or.inr ⟨rfl, rfl⟩
  · exact NameTable.find?_keep_of_ne hne

theorem Memory.get_effect (m : Memory) (name : String) :
    GetEffect m.table.find? m.table.find? name (m.get name).1 := by
  rw [get]
  split
  · next hfind => exact GetEffect.of_found hfind
  · next hfind => exact GetEffect.of_error fun _ _ => hfind

instance : KeepingMedium Memory where
  held m := m.table.find?
  Sound _ := True
  put_effect {m m' name bs out} _ _ h := by
    cases h
    exact ⟨trivial, m.put_effect name bs⟩
  get_effect {m m' name out} _ h := by
    cases (m.get_eq name).symm.trans h
    exact ⟨trivial, m.get_effect name⟩

theorem Faulty.put_effect (m : Faulty) (name : String) (bs : Bytes) :
    PutEffect m.table.find? (m.put name bs).2.table.find? name bs (m.put name bs).1 := by
  rw [put]
  split
  · exact PutEffect.of_error _ _ _ _
  · exact ⟨fun _ => Or.inl (NameTable.find?_set_self m.table name bs),
      (fun _ h => by cases h), fun other hne => NameTable.find?_set_of_ne hne⟩

theorem Faulty.get_effect (m : Faulty) (name : String) :
    GetEffect m.table.find? m.table.find? name (m.get name).1 := by
  rw [get]
  split
  · exact GetEffect.of_error fun missing h => absurd h (by simp [offline])
  · split
    · next hfind => exact GetEffect.of_found hfind
    · next hfind => exact GetEffect.of_error fun _ _ => hfind

instance : KeepingMedium Faulty where
  held m := m.table.find?
  Sound _ := True
  put_effect {m m' name bs out} _ _ h := by
    obtain ⟨rfl, rfl⟩ := Prod.mk.inj h
    exact ⟨trivial, m.put_effect name bs⟩
  get_effect {m m' name out} _ h := by
    cases (m.get_eq name).symm.trans h
    exact ⟨trivial, m.get_effect name⟩

namespace Folder

theorem find?_set_self (f : Folder) (name : FileName) (e : Entry) :
    (f.set name e).find? name = some e :=
  List.lookup_cons_self

theorem find?_set_of_ne {f : Folder} {name other : FileName} {e : Entry} (h : other ≠ name) :
    (f.set name e).find? other = f.find? other :=
  (lookup_cons_of_ne h e _).trans (lookup_filter_of_ne h f)

theorem holds_set_of_ne {f : Folder} {name other : FileName} {e : Entry} (h : other ≠ name) :
    (f.set name e).holds other = f.holds other := by
  rw [holds, holds, find?_set_of_ne h]

end Folder

namespace Disk

variable {d : Disk} {name : String} {bs : Bytes}

def OnlyFiles (d : Disk) : Prop := ∀ name, d.folder.find? name ≠ some .folder

def Writable (name : String) : Prop := checkName name = .ok () ∧ ¬ isTooLong name

theorem writable_of_accepts (h : accepts name) (hshort : name.utf8ByteSize ≤ FileName.limit) :
    Writable name := by
  simp [Writable, checkName, h, isTooLong, hshort]

/-- The disk with a file in place of whatever was there. -/
def write (d : Disk) (name : String) (bs : Bytes) : Disk :=
  { d with folder := d.folder.set (.text name) (.file bs) }

/-- Everything that a write can do: refuse the name, keep a file that is there, or write one. -/
theorem put_cases (d : Disk) (name : String) (bs : Bytes) :
    (∃ e, d.put name bs = (.error e, d)) ∨
      Writable name ∧ (d.folder.holds (.text name) ∧ d.put name bs = (.ok (), d) ∨
        d.put name bs = (.ok (), d.write name bs)) := by
  rw [put]
  split
  · exact Or.inl ⟨_, rfl⟩
  · next hcheck =>
    split
    · exact Or.inl ⟨_, rfl⟩
    · next hlong =>
      split
      · next hholds => exact Or.inr ⟨⟨hcheck, hlong⟩, Or.inl ⟨hholds, rfl⟩⟩
      · exact Or.inr ⟨⟨hcheck, hlong⟩, Or.inr rfl⟩

def held (d : Disk) (name : String) : Option Bytes :=
  match d.read name with
  | .ok v => some v.bytes
  | .error _ => none

theorem read_of_file (hname : Writable name) (hbs : bs ≠ [])
    (hfile : d.folder.find? (.text name) = some (.file bs)) :
    d.read name = .ok ⟨bs, d.threshold < bs.length⟩ := by
  simp [read, hname.1, hname.2, hfile, hbs, bind, Except.bind, pure, Except.pure]

theorem held_of_file (hname : Writable name) (hbs : bs ≠ [])
    (hfile : d.folder.find? (.text name) = some (.file bs)) : d.held name = some bs := by
  rw [held, read_of_file hname hbs hfile]

theorem isSome_held (hd : d.OnlyFiles) (hname : Writable name)
    (hholds : d.folder.holds (.text name)) : (d.held name).isSome := by
  rw [Folder.holds] at hholds
  cases hfind : d.folder.find? (.text name) with
  | none => simp [hfind] at hholds
  | some e =>
    cases e with
    | folder => exact absurd hfind (hd _)
    | file content =>
      have hne : content ≠ [] := by simpa [hfind, Entry.isEmpty] using hholds
      rw [held_of_file hname hne hfind]
      rfl

theorem held_write_self (d : Disk) (hname : Writable name) (hbs : bs ≠ []) :
    (d.write name bs).held name = some bs :=
  held_of_file hname hbs (Folder.find?_set_self _ _ _)

theorem read_write_of_ne {other : String} (hne : other ≠ name) :
    (d.write name bs).read other = d.read other := by
  have hentry : (d.write name bs).folder.find? (.text other) = d.folder.find? (.text other) :=
    Folder.find?_set_of_ne (by simpa using hne)
  simp only [read, hentry]
  rfl

theorem held_write_of_ne {other : String} (hne : other ≠ name) :
    (d.write name bs).held other = d.held other := by
  rw [held, held, read_write_of_ne hne]

theorem OnlyFiles.write (hd : d.OnlyFiles) (name : String) (bs : Bytes) :
    (d.write name bs).OnlyFiles := by
  intro other
  by_cases hne : other = .text name
  · rw [hne, Disk.write, Folder.find?_set_self]
    simp
  · rw [Disk.write, Folder.find?_set_of_ne hne]
    exact hd other

instance : KeepingMedium Disk where
  held := held
  Sound := OnlyFiles
  put_effect {d d' name bs out} hd hbs h := by
    change d.put name bs = _ at h
    rcases d.put_cases name bs with ⟨e, hput⟩ | ⟨hname, ⟨hholds, hput⟩ | hput⟩
    · cases hput.symm.trans h
      exact ⟨hd, PutEffect.of_error _ _ _ _⟩
    · cases hput.symm.trans h
      exact ⟨hd, fun _ => Or.inr ⟨isSome_held hd hname hholds, rfl⟩, fun _ _ => rfl, fun _ _ => rfl⟩
    · cases hput.symm.trans h
      exact ⟨hd.write name bs, fun _ => Or.inl (d.held_write_self hname hbs),
        (fun _ h => by cases h), fun other hne => held_write_of_ne hne⟩
  get_effect {d d' name out} hd h := by
    obtain ⟨hread, rfl⟩ := Prod.mk.inj h
    refine ⟨hd, rfl, fun v hv => ?_, fun missing hm => ?_⟩
    · simp [held, hread.trans hv]
    · simp [held, hread.trans hm]

end Disk

namespace Backing

/-- What a memory, a disk or a medium that fails on demand holds. -/
def held : Backing → String → Option Bytes
  | memory m => KeepingMedium.held m
  | disk m => KeepingMedium.held m
  | faulty m => KeepingMedium.held m
  | remote _ => fun _ => none

def Sound : Backing → Prop
  | memory m => KeepingMedium.Sound m
  | disk m => KeepingMedium.Sound m
  | faulty m => KeepingMedium.Sound m
  | remote _ => False

instance : KeepingMedium Backing where
  held := held
  Sound := Sound
  put_effect {b b' name bs out} hb hbs h := by
    cases b with
    | memory m =>
      obtain ⟨m', hput, rfl⟩ := exists_of_wrapped memory (Medium.put m name bs) h
      exact KeepingMedium.put_effect hb hbs hput
    | disk m =>
      obtain ⟨m', hput, rfl⟩ := exists_of_wrapped disk (Medium.put m name bs) h
      exact KeepingMedium.put_effect hb hbs hput
    | faulty m =>
      obtain ⟨m', hput, rfl⟩ := exists_of_wrapped faulty (Medium.put m name bs) h
      exact KeepingMedium.put_effect hb hbs hput
    | remote m => exact hb.elim
  get_effect {b b' name out} hb h := by
    cases b with
    | memory m =>
      obtain ⟨m', hget, rfl⟩ := exists_of_wrapped memory (Medium.get m name) h
      exact KeepingMedium.get_effect hb hget
    | disk m =>
      obtain ⟨m', hget, rfl⟩ := exists_of_wrapped disk (Medium.get m name) h
      exact KeepingMedium.get_effect hb hget
    | faulty m =>
      obtain ⟨m', hget, rfl⟩ := exists_of_wrapped faulty (Medium.get m name) h
      exact KeepingMedium.get_effect hb hget
    | remote m => exact hb.elim

end Backing

end ContentAddressed
