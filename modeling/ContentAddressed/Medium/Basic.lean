import ContentAddressed.Fingerprint
import ContentAddressed.Text.Quoted

/-!
# Storage media

A medium keeps bytes under names. Writing and reading may fail, and may change the state of the
medium even when they only read.
-/

namespace ContentAddressed

/-- Bytes read from a medium, copied or as a map of a file. -/
structure StoredBytes where
  bytes : Bytes
  mapped : Bool := false
  deriving DecidableEq, Repr

def StoredBytes.describe (v : StoredBytes) : String :=
  let kind := if v.mapped then "mapped" else "shared"
  s!"BlockBytes({kind}, {v.bytes.length} bytes)"

/-- The result of an operation and the state that it leaves. -/
abbrev Outcome (σ α : Type) := Except Error α × σ

/-- What a store needs of the thing that it keeps blocks on. -/
class Medium (μ : Type) where
  /-- Keep bytes under a name. -/
  put : μ → String → Bytes → Outcome μ Unit
  /-- Read the bytes under a name. -/
  get : μ → String → Outcome μ StoredBytes
  /-- The names kept, in order, if the medium can tell. -/
  list : μ → Except Error (Option (List String))
  /-- A word for the kind of medium. -/
  kind : μ → String

theorem mem_of_lookup {α β : Type} [BEq α] [LawfulBEq α] {t : List (α × β)} {key : α} {value : β}
    (h : t.lookup key = some value) : (key, value) ∈ t := by
  obtain ⟨before, after, rfl, -⟩ := List.lookup_eq_some_iff.mp h
  simp

abbrev NameTable := List (String × Bytes)

namespace NameTable

def find? (t : NameTable) (name : String) : Option Bytes := t.lookup name

def contains (t : NameTable) (name : String) : Bool := (t.find? name).isSome

def erase (t : NameTable) (name : String) : NameTable := t.filter fun e => e.1 != name

def set (t : NameTable) (name : String) (bs : Bytes) : NameTable := (name, bs) :: t.erase name

def keep (t : NameTable) (name : String) (bs : Bytes) : NameTable :=
  if t.contains name then t else (name, bs) :: t

end NameTable

def sortNames (names : List String) : List String := names.mergeSort fun a b => a ≤ b

def NameTable.names (t : NameTable) : List String := sortNames (t.map Prod.fst)

end ContentAddressed
