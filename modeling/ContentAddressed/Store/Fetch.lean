import ContentAddressed.Medium.Finite
import ContentAddressed.Store.Basic
import ContentAddressed.Walk.Halting

/-!
# Walks through a store

A chain of finite media runs out of answers, so every walk through it ends.
-/

namespace ContentAddressed.Store

variable {μ : Type} [Medium μ]

section Finite

variable [FiniteMedium μ]

/-- How many names outside a list the chain may still answer. -/
def left : Store μ → List String → Nat
  | base m _, asked => FiniteMedium.left m asked
  | cached m _ c, asked => FiniteMedium.left m asked + c.left asked

theorem left_cons_le (s : Store μ) (name : String) (asked : List String) :
    s.left (name :: asked) ≤ s.left asked := by
  induction s with
  | base m j => exact FiniteMedium.left_cons_le m name asked
  | cached m j c ih => exact Nat.add_le_add (FiniteMedium.left_cons_le m name asked) ih

theorem left_retrieve_le (s : Store μ) (name : String) (asked : List String) :
    (s.retrieve name).2.left asked ≤ s.left asked := by
  induction s with
  | base m j => exact FiniteMedium.left_get_le m name asked
  | cached m j c ih =>
    rw [retrieve]
    split <;> rename_i hc <;> rw [hc] at ih
    · exact Nat.add_le_add_left ih _
    · exact Nat.add_le_add (FiniteMedium.left_get_le m name asked) ih
    · exact Nat.add_le_add_left ih _

/-- The medium that answers has fewer names left, and no other one has more. -/
theorem left_answer_lt (name : String) (asked : List String) (s : Store μ) (v : StoredBytes)
    (s' : Store μ) (hnew : name ∉ asked) (h : s.retrieve name = (.ok v, s')) :
    s'.left (name :: asked) < s.left asked := by
  induction s generalizing s' v with
  | base m j =>
    obtain ⟨hget, rfl⟩ := Prod.mk.inj h
    exact FiniteMedium.left_answer_lt m name asked v _ hnew (Prod.ext hget rfl)
  | cached m j c ih =>
    rw [retrieve] at h
    split at h
    · next hc =>
      obtain ⟨-, rfl⟩ := Prod.mk.inj h
      exact Nat.add_lt_add_of_le_of_lt (FiniteMedium.left_cons_le m name asked) (ih _ _ hc)
    · next hc =>
      obtain ⟨hget, rfl⟩ := Prod.mk.inj h
      have hcache := left_retrieve_le c name (name :: asked)
      rw [hc] at hcache
      exact Nat.add_lt_add_of_lt_of_le
        (FiniteMedium.left_answer_lt m name asked v _ hnew (Prod.ext hget rfl))
        (Nat.le_trans hcache (left_cons_le c name asked))
    · simp at h

def walker (keys : Option Keychain) (limit : Option Nat) : Walker (Store μ) :=
  { retrieve := retrieve, keys := keys, limit := limit }

theorem boundedBy_left (keys : Option Keychain) (limit : Option Nat) :
    (walker keys limit : Walker (Store μ)).BoundedBy left :=
  left_answer_lt

theorem walker_halts (s : Store μ) (keys : Option Keychain) (limit : Option Nat) (root : Link) :
    (walker keys limit).Halts (.start root) s :=
  (boundedBy_left keys limit).halts (.start root) s List.nodup_nil

def fetch (s : Store μ) (keys : Option Keychain) (limit : Option Nat) (root : Link) :
    Outcome (Store μ) WalkResult :=
  (walker keys limit).fetch root s (s.walker_halts keys limit root)

end Finite

def describeFetch (s : Store μ) (keys : Option Keychain) (limit : Option Nat) : String :=
  Text.record "Fetcher"
    [("store", s.describe), ("keys", Text.flag keys.isSome),
     ("max_depth", Text.optional (limit.map toString))]

/-- The names on the outermost medium of the chain that can tell. -/
def localNames (s : Store μ) : Except Error (Option (List String)) :=
  s.levels.foldlM (fun found level =>
    match found with
    | some names => .ok (some names)
    | none => level.list) none

end ContentAddressed.Store
