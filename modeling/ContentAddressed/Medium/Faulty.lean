import ContentAddressed.Medium.Basic

/-!
# A medium that fails on demand

It keeps the last bytes under a name, remembers the names of its writes, and cannot be listed.
-/

namespace ContentAddressed

structure Faulty where
  table : NameTable := []
  /-- Names of the writes that succeeded, oldest first. -/
  puts : List String := []
  failPut : Bool := false
  failGet : Bool := false
  /-- How many more writes succeed, if there is a limit. -/
  allowed : Option Nat := none

namespace Faulty

def offline : Error := .io (.other "medium offline")

def put (m : Faulty) (name : String) (bs : Bytes) : Outcome Faulty Unit :=
  if m.failPut || m.allowed == some 0 then (.error offline, m)
  else
    (.ok (), { m with table := m.table.set name bs, puts := m.puts ++ [name],
                      allowed := m.allowed.map (· - 1) })

def get (m : Faulty) (name : String) : Outcome Faulty StoredBytes :=
  if m.failGet then (.error offline, m)
  else match m.table.find? name with
    | some bs => (.ok ⟨bs, false⟩, m)
    | none => (.error (.noSuchBlock name), m)

def setFaults (m : Faulty) (put get : Bool) (allowed : Option Nat) : Faulty :=
  { m with failPut := put, failGet := get, allowed := allowed }

/-- Lose the bytes under a name; whether there were any. -/
def forget (m : Faulty) (name : String) : Bool × Faulty :=
  (m.table.contains name, { m with table := m.table.erase name })

instance : Medium Faulty where
  put := put
  get := get
  list _ := .ok none
  kind _ := "faulty"

end Faulty

end ContentAddressed
