import ContentAddressed.Error

/-!
# Folders

What one directory shows to the medium that keeps its blocks there: the direct entries by name.
-/

namespace ContentAddressed

/-- The name of an entry: text, or bytes that are no UTF-8 text. -/
inductive FileName where
  | text (s : String)
  | raw (bs : Bytes)
  deriving DecidableEq, Repr

def FileName.size : FileName → Nat
  | text s => s.utf8ByteSize
  | raw bs => bs.length

def FileName.limit : Nat := 255

inductive Entry where
  | file (content : Bytes)
  | folder
  deriving DecidableEq, Repr

/-- What the size of an entry is said to be; that of a directory is never zero. -/
def Entry.size : Entry → Nat
  | file content => content.length
  | folder => 4096

def Entry.isEmpty : Entry → Bool
  | file content => content.isEmpty
  | folder => false

/-- The entries of a directory; a name has at most one. -/
abbrev Folder := List (FileName × Entry)

namespace Folder

def find? (f : Folder) (name : FileName) : Option Entry := f.lookup name

def holds (f : Folder) (name : FileName) : Bool :=
  match f.find? name with
  | some e => !e.isEmpty
  | none => false

def erase (f : Folder) (name : FileName) : Folder := f.filter fun e => e.1 != name

def set (f : Folder) (name : FileName) (entry : Entry) : Folder := (name, entry) :: f.erase name

end Folder

end ContentAddressed
