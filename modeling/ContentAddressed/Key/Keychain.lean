import ContentAddressed.Key.Basic

/-! # Keychains: the keys of blocks by the fingerprint of the block -/

namespace ContentAddressed

/-- At most one key for each fingerprint, latest first. -/
structure Keychain where
  entries : List (Fingerprint × SecretKey) := []

namespace Keychain

def empty : Keychain := {}

def size (k : Keychain) : Nat := k.entries.length

def isEmpty (k : Keychain) : Bool := k.entries.isEmpty

def find? (k : Keychain) (block : Fingerprint) : Option SecretKey := k.entries.lookup block

def erase (k : Keychain) (block : Fingerprint) : Keychain :=
  ⟨k.entries.filter fun e => e.1 != block⟩

/-- Set the key for a block, in place of an earlier one. -/
def insert (k : Keychain) (block : Fingerprint) (key : SecretKey) : Keychain :=
  ⟨(block, key) :: (k.erase block).entries⟩

theorem find?_insert_self (k : Keychain) (block : Fingerprint) (key : SecretKey) :
    (k.insert block key).find? block = some key := by
  simp [insert, find?]

def describe (k : Keychain) : String :=
  Text.record "Keychain" [("key_count", toString k.size)]

end Keychain

end ContentAddressed
