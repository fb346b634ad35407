import ContentAddressed.Block.Draft
import ContentAddressed.Block.Sealed

/-!
# Files as trees of blocks

Leaves carry consecutive pieces of a file, index blocks carry links to the level below, and one root
link names the whole. Read depth first, in the order of the links, the contents give the file back.
-/

namespace ContentAddressed

/-- Padding for the blocks of a file. Each block has its own, by its place in the order in which the
blocks are built. -/
structure Fillers where
  get : Nat → Bytes

/-- The same padding in every block. -/
instance : Coe Bytes Fillers := ⟨fun filler => ⟨fun _ => filler⟩⟩

/-- A block of a file, and its encrypted form where that is what gets stored. -/
structure FileNode where
  block : Block
  enclosed : Option SealedBlock

def FileNode.link (n : FileNode) : Link :=
  match n.enclosed with
  | some e => e.link
  | none => n.block.link

structure FileTree where
  root : Link
  /-- Leaves first, then level by level up to the root. -/
  nodes : List FileNode

namespace FileTree

def plaintext (t : FileTree) : List Block :=
  t.nodes.filterMap fun n => if n.enclosed.isNone then some n.block else none

def encrypted (t : FileTree) : List SealedBlock := t.nodes.filterMap FileNode.enclosed

/-- What is to be stored: names and bytes, those without encryption first. -/
def writes (t : FileTree) : List (String × Bytes) :=
  t.plaintext.map (fun b => (b.name, b.frame)) ++
    t.encrypted.map fun b => (b.name.encode, b.ciphertext)

def size (t : FileTree) : Nat := t.plaintext.length + t.encrypted.length

def isEmpty (t : FileTree) : Bool := t.size == 0

/-- How a file is cut and whether its blocks are encrypted. -/
structure Layout where
  crypto : CryptoConfig := {}
  blockSize : Nat := 4096
  encrypt : Bool := false

namespace Layout

/-- What a block of the chosen size holds beside its header. -/
def capacity (l : Layout) : Nat := l.blockSize - Block.headerLength

/-- Whether the size of blocks is a power of two from 32 to 2^31. -/
def accepts (l : Layout) : Bool :=
  Block.isPowerOfTwo l.blockSize && 2 * Block.headerLength ≤ l.blockSize &&
    l.blockSize ≤ 1 <<< Block.maxExponent

def node (l : Layout) (filler : Bytes) (draft : Block.Draft) : Except Error FileNode := do
  let block ← Block.Draft.build { draft with digest := l.crypto.digest } filler
  if l.encrypt then
    let enclosed ← block.encrypt l.crypto
    return ⟨block, some enclosed⟩
  else return ⟨block, none⟩

/-- Build blocks one after another, the first of them at the place `first`. -/
def nodes (l : Layout) (fillers : Fillers) (first : Nat) (drafts : List Block.Draft) :
    Except Error (List FileNode) :=
  (drafts.zipIdx first).mapM fun d => l.node (fillers.get d.2) d.1

/-- Groups of the links that follow, `current` being the open group, last link first, and `used` its
size. A group closes at 255 links, or when the next link would overfill a block and the group has
two links already. -/
def groupFrom (capacity : Nat) (current : List Link) (used : Nat) :
    List Link → List (List Link)
  | [] => if current.isEmpty then [] else [current.reverse]
  | l :: ls =>
    if current.length = Block.maxLinks ∨
        (2 ≤ current.length ∧ capacity < used + l.byteLength) then
      current.reverse :: groupFrom capacity [l] l.byteLength ls
    else groupFrom capacity (l :: current) (used + l.byteLength) ls

/-- The links of one level, grouped for the index blocks above it. -/
def group (l : Layout) (links : List Link) : List (List Link) :=
  groupFrom l.capacity [] 0 links

/-- What the blocks above a level hold, one for each group of its links. -/
def indexDrafts (l : Layout) (level : List Link) : List Block.Draft :=
  (l.group level).map fun links => { links := links }

/-- Add index blocks above a level until one link is left; `done` is what was built so far. There
are never more levels than links in the first one. -/
def climb (l : Layout) (fillers : Fillers) :
    (levels : Nat) → List Link → (done : List FileNode) → Except Error FileTree
  | _, [root], done => .ok ⟨root, done⟩
  | 0, _, _ => .error (.invalidArgument .noRoot)
  | n + 1, level, done => do
    let above ← l.nodes fillers done.length (l.indexDrafts level)
    climb l fillers n (above.map FileNode.link) (done ++ above)

/-- The contents of the leaves: the pieces of a file, or one empty piece. -/
def leafContents (l : Layout) (data : Bytes) : List Bytes :=
  if data.isEmpty then [[]] else Bytes.chunks l.capacity data

def leafDrafts (l : Layout) (data : Bytes) : List Block.Draft :=
  (l.leafContents data).map fun piece => { content := piece }

def build (l : Layout) (fillers : Fillers) (data : Bytes) : Except Error FileTree :=
  if l.accepts then do
    let leaves ← l.nodes fillers 0 (l.leafDrafts data)
    l.climb fillers leaves.length (leaves.map FileNode.link) leaves
  else .error (.invalidArgument (.blockSize l.blockSize))

end Layout

end FileTree

end ContentAddressed
