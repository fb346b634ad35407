import ContentAddressed.Medium.Basic

/-! # Memory: the first bytes under a name are kept -/

namespace ContentAddressed

structure Memory where
  table : NameTable := []

namespace Memory

def size (m : Memory) : Nat := m.table.length

def put (m : Memory) (name : String) (bs : Bytes) : Outcome Memory Unit :=
  (.ok (), ⟨m.table.keep name bs⟩)

def get (m : Memory) (name : String) : Outcome Memory StoredBytes :=
  match m.table.find? name with
  | some bs => (.ok ⟨bs, false⟩, m)
  | none => (.error (.noSuchBlock name), m)

instance : Medium Memory where
  put := put
  get := get
  list m := .ok (some m.table.names)
  kind _ := "memory"

end Memory

end ContentAddressed
