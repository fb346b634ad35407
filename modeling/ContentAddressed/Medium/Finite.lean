import ContentAddressed.Medium.Backing

/-!
# Media with finitely many blocks

Tables, directories and the answers of a peer come to an end: each medium has a number that falls
whenever it answers a name for the first time, and never rises.
-/

namespace ContentAddressed

/-- A medium with a bound for the names that it may still answer. -/
class FiniteMedium (μ : Type) [Medium μ] where
  /-- How many names outside a list may still be answered. -/
  left : μ → List String → Nat
  left_cons_le : ∀ m name asked, left m (name :: asked) ≤ left m asked
  left_get_le : ∀ m name asked, left (Medium.get m name).2 asked ≤ left m asked
  left_answer_lt : ∀ m name asked v m', name ∉ asked → Medium.get m name = (.ok v, m') →
    left m' (name :: asked) < left m asked

def unasked (names asked : List String) : Nat := (names.filter (· ∉ asked)).length

theorem unasked_eq (names asked : List String) (name : String) :
    unasked names (name :: asked) =
      ((names.filter (· ∉ asked)).filter (· ≠ name)).length := by
  rw [unasked, List.filter_filter]
  congr 1
  apply List.filter_congr
  simp

theorem unasked_cons_le (names asked : List String) (name : String) :
    unasked names (name :: asked) ≤ unasked names asked := by
  rw [unasked_eq]
  exact List.length_filter_le _ _

theorem unasked_cons_lt {names asked : List String} {name : String} (hn : name ∈ names)
    (ha : name ∉ asked) : unasked names (name :: asked) < unasked names asked := by
  rw [unasked_eq, unasked, List.length_filter_lt_length_iff_exists]
  exact ⟨name, by simp [hn, ha], by simp⟩

/-- A medium that reading does not change, and that answers only the names of a list. -/
@[reducible] def FiniteMedium.ofNames {μ : Type} [Medium μ] (names : μ → List String)
    (hsame : ∀ m name, (Medium.get m name : Outcome μ StoredBytes).2 = m)
    (hmem : ∀ m name v, (Medium.get m name : Outcome μ StoredBytes).1 = .ok v → name ∈ names m) :
    FiniteMedium μ where
  left m := unasked (names m)
  left_cons_le m name asked := unasked_cons_le (names m) asked name
  left_get_le m name asked := Nat.le_of_eq (by rw [hsame])
  left_answer_lt m name asked v m' hnew h := by
    obtain rfl : m = m' := by rw [← hsame m name, h]
    exact unasked_cons_lt (hmem m name v (by rw [h])) hnew

theorem NameTable.mem_of_find? {t : NameTable} {name : String} {bs : Bytes}
    (h : t.find? name = some bs) : name ∈ t.map Prod.fst :=
  List.mem_map_of_mem (mem_of_lookup h)

theorem Memory.get_eq (m : Memory) (name : String) :
    m.get name = ((m.get name).1, m) := by
  rw [get]
  split <;> rfl

instance : FiniteMedium Memory :=
  FiniteMedium.ofNames (fun m => m.table.map Prod.fst)
    (fun m name => congrArg Prod.snd (m.get_eq name))
    (fun m name v h => by
      change (m.get name).1 = .ok v at h
      rw [Memory.get] at h
      split at h
      · next hfind => exact NameTable.mem_of_find? hfind
      · simp at h)

theorem Faulty.get_eq (m : Faulty) (name : String) : m.get name = ((m.get name).1, m) := by
  rw [get]
  split
  · rfl
  · split <;> rfl

instance : FiniteMedium Faulty :=
  FiniteMedium.ofNames (fun m => m.table.map Prod.fst)
    (fun m name => congrArg Prod.snd (m.get_eq name))
    (fun m name v h => by
      change (m.get name).1 = .ok v at h
      rw [Faulty.get] at h
      split at h
      · simp at h
      · split at h
        · next hfind => exact NameTable.mem_of_find? hfind
        · simp at h)

def Folder.texts (f : Folder) : List String :=
  f.filterMap fun e =>
    match e.1 with
    | .text name => some name
    | .raw _ => none

theorem Folder.mem_texts {f : Folder} {name : String} {e : Entry}
    (h : f.find? (.text name) = some e) : name ∈ f.texts :=
  List.mem_filterMap.mpr ⟨_, mem_of_lookup h, rfl⟩

theorem Disk.read_of_absent {d : Disk} {name : String} {v : StoredBytes}
    (h : d.folder.find? (.text name) = none) : d.read name ≠ .ok v := by
  simp only [read, h, bind, Except.bind, throw, throwThe, MonadExceptOf.throw]
  split
  · simp
  · split <;> simp

instance : FiniteMedium Disk :=
  FiniteMedium.ofNames (fun d => d.folder.texts) (fun _ _ => rfl)
    (fun d name v h => by
      change d.read name = .ok v at h
      cases hfind : d.folder.find? (.text name) with
      | none => exact absurd h (Disk.read_of_absent hfind)
      | some e => exact Folder.mem_texts hfind)

def Peer.left : Peer → Nat
  | unreachable => 0
  | scripted answers => answers.length

theorem Peer.left_ask_le (p : Peer) (request : Http.Request) : (p.ask request).2.left ≤ p.left := by
  match p with
  | unreachable => exact Nat.le_refl 0
  | scripted [] => exact Nat.le_refl 0
  | scripted (_ :: rest) => exact Nat.le_succ rest.length

theorem Remote.left_get_lt {r r' : Remote} {name : String} {v : StoredBytes}
    (h : r.get name = (.ok v, r')) : r'.peer.left < r.peer.left := by
  obtain ⟨base, url, authenticator, peer⟩ := r
  match peer with
  | .unreachable => cases (Prod.mk.inj h).1
  | .scripted [] => cases (Prod.mk.inj h).1
  | .scripted (_ :: rest) =>
    obtain rfl := (Prod.mk.inj h).2
    exact Nat.lt_succ_self rest.length

instance : FiniteMedium Remote where
  left r _ := r.peer.left
  left_cons_le _ _ _ := Nat.le_refl _
  left_get_le r name _ := r.peer.left_ask_le (.download (r.downloadUrl name))
  left_answer_lt _ _ _ _ _ _ h := Remote.left_get_lt h

namespace Backing

def left (b : Backing) (asked : List String) : Nat :=
  match b with
  | memory m => FiniteMedium.left m asked
  | disk m => FiniteMedium.left m asked
  | remote m => FiniteMedium.left m asked
  | faulty m => FiniteMedium.left m asked

theorem exists_of_wrapped {α μ : Type} (wrap : μ → Backing) (call : Outcome μ α)
    {out : Except Error α} {b : Backing} (h : call.map id wrap = (out, b)) :
    ∃ m, call = (out, m) ∧ b = wrap m := by
  obtain ⟨rfl, rfl⟩ := Prod.mk.inj h
  exact ⟨call.2, rfl, rfl⟩

instance : FiniteMedium Backing where
  left := left
  left_cons_le b name asked := by
    cases b <;> exact FiniteMedium.left_cons_le _ name asked
  left_get_le b name asked := by
    cases b <;> exact FiniteMedium.left_get_le _ name asked
  left_answer_lt b name asked v b' hnew h := by
    cases b with
    | memory m =>
      obtain ⟨m', hm, rfl⟩ := exists_of_wrapped memory (Medium.get m name) h
      exact FiniteMedium.left_answer_lt m name asked v m' hnew hm
    | disk m =>
      obtain ⟨m', hm, rfl⟩ := exists_of_wrapped disk (Medium.get m name) h
      exact FiniteMedium.left_answer_lt m name asked v m' hnew hm
    | remote m =>
      obtain ⟨m', hm, rfl⟩ := exists_of_wrapped remote (Medium.get m name) h
      exact FiniteMedium.left_answer_lt m name asked v m' hnew hm
    | faulty m =>
      obtain ⟨m', hm, rfl⟩ := exists_of_wrapped faulty (Medium.get m name) h
      exact FiniteMedium.left_answer_lt m name asked v m' hnew hm

end Backing

end ContentAddressed
