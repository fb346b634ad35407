import ContentAddressed.FileTree
import ContentAddressed.Medium.Basic

/-!
# Stores

A store is a medium, a journal, and optionally a cache, which is a store itself. Writes go to the
cache, and their names to the journal until a flush brings them to the medium. Reads ask the cache
first.
-/

namespace ContentAddressed

/-- A chain of stores, the one that is used first; the last one has no cache. -/
inductive Store (μ : Type) where
  | base (medium : μ) (journal : List String)
  | cached (medium : μ) (journal : List String) (cache : Store μ)

namespace Store

variable {μ : Type}

def plain (medium : μ) : Store μ := base medium []

def withCache (medium : μ) (cache : Store μ) : Store μ := cached medium [] cache

def medium : Store μ → μ
  | base m _ => m
  | cached m _ _ => m

/-- Names that wait for a flush, oldest first. -/
def journal : Store μ → List String
  | base _ j => j
  | cached _ j _ => j

def cache? : Store μ → Option (Store μ)
  | base _ _ => none
  | cached _ _ c => some c

/-- How many caches stand in front of the innermost medium. -/
def depth : Store μ → Nat
  | base _ _ => 0
  | cached _ _ c => c.depth + 1

def levels : Store μ → List (Store μ)
  | base m j => [base m j]
  | cached m j c => cached m j c :: c.levels

def append (name : String) : Store μ → Store μ
  | base m j => base m (j ++ [name])
  | cached m j c => cached m (j ++ [name]) c

def setMedium (medium : μ) : Store μ → Store μ
  | base _ j => base medium j
  | cached _ j c => cached medium j c

def mapMedia {ν : Type} (f : μ → ν) : Store μ → Store ν
  | base m j => base (f m) j
  | cached m j c => cached (f m) j (c.mapMedia f)

/-- Act on the `level`-th store of the chain. -/
def atLevel {α : Type} (level : Nat) (f : Store μ → α × Store μ) (s : Store μ) :
    Option (α × Store μ) :=
  match level, s with
  | 0, s => some (f s)
  | _ + 1, base _ _ => none
  | n + 1, cached m j c => (c.atLevel n f).map fun r => (r.1, cached m j r.2)

section AtLevel

variable {α : Type} {f : Store μ → α × Store μ} {s s' : Store μ} {out : α}

theorem atLevel_zero_eq_some_iff : s.atLevel 0 f = some (out, s') ↔ f s = (out, s') := by
  rw [atLevel, Option.some_inj]

theorem atLevel_succ_eq_some_iff {k : Nat} : s.atLevel (k + 1) f = some (out, s') ↔
    ∃ m j c c', s = cached m j c ∧ c.atLevel k f = some (out, c') ∧ s' = cached m j c' := by
  constructor
  · intro h
    cases s with
    | base m j => cases h
    | cached m j c =>
      obtain ⟨⟨_, c'⟩, hc, heq⟩ := Option.map_eq_some_iff.mp h
      cases heq
      exact ⟨m, j, c, c', rfl, hc, rfl⟩
  · rintro ⟨m, j, c, c', rfl, hc, rfl⟩
    rw [atLevel, hc]
    rfl

end AtLevel

variable [Medium μ]

def kind (s : Store μ) : String := Medium.kind s.medium

def list (s : Store μ) : Except Error (Option (List String)) := Medium.list s.medium

def storeBytes (name : String) (bs : Bytes) : Store μ → Outcome (Store μ) Unit
  | base m j =>
    let (r, m) := Medium.put m name bs
    (r, base m j)
  | cached m j c =>
    match c.storeBytes name bs with
    | (.ok (), c) => (.ok (), cached m (j ++ [name]) c)
    | (.error e, c) => (.error e, cached m j c)

/-- Read the bytes under a name, from the innermost store that has them. -/
def retrieve (name : String) : Store μ → Outcome (Store μ) StoredBytes
  | base m j =>
    let (r, m) := Medium.get m name
    (r, base m j)
  | cached m j c =>
    match c.retrieve name with
    | (.ok v, c) => (.ok v, cached m j c)
    | (.error (.noSuchBlock _), c) =>
      let (r, m) := Medium.get m name
      (r, cached m j c)
    | (.error e, c) => (.error e, cached m j c)

/-- Bring waiting names from a cache to a medium, oldest first. A name that cannot be read or
written stays at the head; one that the cache does not have is dropped. -/
def drain (m : μ) (queue : List String) (c : Store μ) :
    Except Error Unit × μ × List String × Store μ :=
  match queue with
  | [] => (.ok (), m, [], c)
  | name :: rest =>
    match c.retrieve name with
    | (.error (.noSuchBlock _), c) => (.error (.cacheInconsistency name), m, rest, c)
    | (.error e, c) => (.error e, m, name :: rest, c)
    | (.ok v, c) =>
      match Medium.put m name v.bytes with
      | (.error e, m) => (.error e, m, name :: rest, c)
      | (.ok (), m) => drain m rest c

theorem depth_retrieve (name : String) (s : Store μ) : (s.retrieve name).2.depth = s.depth := by
  induction s with
  | base m j => rfl
  | cached m j c ih =>
    rw [retrieve]
    split <;> rename_i h <;> rw [h] at ih <;> simpa [depth] using ih

theorem depth_drain (m : μ) (queue : List String) (c : Store μ) :
    (drain m queue c).2.2.2.depth = c.depth := by
  induction queue generalizing m c with
  | nil => rfl
  | cons name rest ih =>
    have h := depth_retrieve name c
    rw [drain]
    split <;> rename_i hr <;> rw [hr] at h
    · exact h
    · exact h
    · split
      · exact h
      · rw [ih]; exact h

/-- Empty the journal into the medium, then flush the cache. -/
def flush (s : Store μ) : Outcome (Store μ) Unit :=
  match s with
  | base m [] => (.ok (), base m [])
  | base m (name :: rest) => (.error (.cacheInconsistency name), base m rest)
  | cached m j c =>
    match _h : drain m j c with
    | (.error e, m', j', c') => (.error e, cached m' j' c')
    | (.ok (), m', j', c') =>
      let (r, c'') := c'.flush
      (r, cached m' j' c'')
termination_by s.depth
decreasing_by
  have := depth_drain m j c
  rw [_h] at this
  simp only at this
  simp only [depth]
  omega

/-- Write several names in order, up to the first failure. -/
def storeEach (s : Store μ) : List (String × Bytes) → Outcome (Store μ) Unit
  | [] => (.ok (), s)
  | (name, bs) :: rest =>
    match s.storeBytes name bs with
    | (.ok (), s) => s.storeEach rest
    | (.error e, s) => (.error e, s)

def storeBlock (s : Store μ) (b : Block) : Outcome (Store μ) Unit := s.storeBytes b.name b.frame

def storeSealed (s : Store μ) (b : SealedBlock) : Outcome (Store μ) Unit :=
  s.storeBytes b.name.encode b.ciphertext

def storeAll (s : Store μ) (blocks : List Block) : Outcome (Store μ) Unit :=
  s.storeEach (blocks.map fun b => (b.name, b.frame))

/-- Write the blocks of a file, those without encryption first. -/
def storeFile (s : Store μ) (t : FileTree) : Outcome (Store μ) Unit :=
  s.storeEach t.writes

def describe : Store μ → String
  | base m j =>
    Text.record "Store"
      [("backend", Text.quote (Medium.kind m)), ("cache", "None"),
       ("pending", toString j.length)]
  | cached m j c =>
    Text.record "Store"
      [("backend", Text.quote (Medium.kind m)), ("cache", Text.optional (some c.describe)),
       ("pending", toString j.length)]

end Store

end ContentAddressed
