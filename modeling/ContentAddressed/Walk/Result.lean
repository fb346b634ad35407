import ContentAddressed.Block.Basic
import ContentAddressed.Medium.Basic

/-!
# What a walk finds

Every name reached, in the order of the walk, with the block it opened to or the bytes that nothing
opened. A file is put together again from the blocks below a name.
-/

namespace ContentAddressed

inductive Found where
  | block (b : Block)
  | locked (v : StoredBytes)

def Found.block? : Found → Option Block
  | block b => some b
  | locked _ => none

def Found.locked? : Found → Option StoredBytes
  | block _ => none
  | locked v => some v

def Found.links : Found → List Link
  | block b => b.links
  | locked _ => []

/-- Names with what was found under them, in the order of the walk. -/
structure WalkResult where
  entries : List (String × Found) := []

namespace WalkResult

def find? (r : WalkResult) (name : String) : Option Found := r.entries.lookup name

def block? (r : WalkResult) (name : String) : Option Block := (r.find? name).bind Found.block?

def locked? (r : WalkResult) (name : String) : Option StoredBytes :=
  (r.find? name).bind Found.locked?

def contains (r : WalkResult) (name : String) : Bool := (r.find? name).isSome

def blocks (r : WalkResult) : List (String × Block) :=
  r.entries.filterMap fun e => e.2.block?.map fun b => (e.1, b)

def lockedEntries (r : WalkResult) : List (String × StoredBytes) :=
  r.entries.filterMap fun e => e.2.locked?.map fun v => (e.1, v)

def blockNames (r : WalkResult) : List String := r.blocks.map Prod.fst

def lockedNames (r : WalkResult) : List String := r.lockedEntries.map Prod.fst

def size (r : WalkResult) : Nat := r.entries.length

def isEmpty (r : WalkResult) : Bool := r.entries.isEmpty

def apart (r : WalkResult) (path : List String) : List (String × Found) :=
  r.entries.filter fun e => e.1 ∉ path

theorem length_apart_lt {r : WalkResult} {path : List String} {name : String} {f : Found}
    (h : r.find? name = some f) (hp : name ∉ path) :
    (r.apart (name :: path)).length < (r.apart path).length := by
  have hmem : (name, f) ∈ r.apart path := by
    simpa [apart, hp] using mem_of_lookup h
  have hstep : r.apart (name :: path) = (r.apart path).filter fun e => e.1 != name := by
    simp only [apart, List.filter_filter]
    congr 1
    funext e
    by_cases he : e.1 = name <;> simp [he]
  rw [hstep, List.length_filter_lt_length_iff_exists]
  exact ⟨(name, f), hmem, by simp⟩

/-- The content under a name and below it, `path` being the names on the way from the start. -/
def contentBelow (r : WalkResult) (path : List String) (name : String) : Except Error Bytes :=
  match _hf : r.find? name with
  | none => .error (.invalidArgument (.notFetched name))
  | some (.locked _) => .error (.invalidArgument (.notDecrypted name))
  | some (.block b) =>
    if _hp : name ∈ path then .error (.invalidArgument (.cycle name))
    else do
      let parts ← b.links.mapM fun l => r.contentBelow (name :: path) l.target
      return b.content ++ parts.flatten
termination_by (r.apart path).length
decreasing_by exact length_apart_lt _hf _hp

/-- The content of the block under a name, followed by what is below each of its links in order. -/
def assemble (r : WalkResult) (name : String) : Except Error Bytes := r.contentBelow [] name

end WalkResult

end ContentAddressed
