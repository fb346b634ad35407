import ContentAddressed.Files.Folder
import ContentAddressed.Medium.Basic

/-!
# Disk: one file a block

The name of a block is the name of its file. Files of length zero count as absent, and names that
start with a dot are left to others.
-/

namespace ContentAddressed

structure Disk where
  /-- The directory, as text. -/
  path : String
  /-- Files larger than this are read as maps. -/
  threshold : Nat := 1048576
  folder : Folder := []

namespace Disk

/-- Whether a name is the name of a file directly in the directory that is not hidden. -/
def accepts (name : String) : Bool :=
  match name.toList with
  | [] => false
  | c :: cs => c != '.' && (c :: cs).all fun x => x != '/' && x != '\\' && x != '\x00'

def checkName (name : String) : Except Error Unit :=
  if accepts name then .ok () else .error (.invalidArgument (.fileName name))

def pathOf (d : Disk) (name : String) : Except Error String := do
  checkName name
  return if d.path.isEmpty || d.path.endsWith "/" then d.path ++ name else d.path ++ "/" ++ name

def isTooLong (name : String) : Bool := FileName.limit < name.utf8ByteSize

/-- Write a file, unless one that is not empty is there. -/
def put (d : Disk) (name : String) (bs : Bytes) : Outcome Disk Unit :=
  match checkName name with
  | .error e => (.error e, d)
  | .ok () =>
    if isTooLong name then (.error (.io .nameTooLong), d)
    else if d.folder.holds (.text name) then (.ok (), d)
    else (.ok (), { d with folder := d.folder.set (.text name) (.file bs) })

def read (d : Disk) (name : String) : Except Error StoredBytes := do
  checkName name
  if isTooLong name then throw (.io .nameTooLong)
  match d.folder.find? (.text name) with
  | none => throw (.noSuchBlock name)
  | some .folder =>
    throw (.io (if Entry.folder.size ≤ d.threshold then .isDirectory else .noDevice))
  | some (.file bs) =>
    if bs.isEmpty then throw (.noSuchBlock name) else return ⟨bs, d.threshold < bs.length⟩

def get (d : Disk) (name : String) : Outcome Disk StoredBytes := (d.read name, d)

def blockName? (e : FileName × Entry) : Option String :=
  match e with
  | (.text name, .file bs) => if name.startsWith "." || bs.isEmpty then none else some name
  | _ => none

def names (d : Disk) : List String := sortNames (d.folder.filterMap blockName?)

/-- The names in the directory, which has to have a path of its own. -/
def list (d : Disk) : Except Error (Option (List String)) :=
  if d.path.isEmpty then .error (.io .notFound) else .ok (some d.names)

instance : Medium Disk where
  put := put
  get := get
  list := list
  kind _ := "disk"

end Disk

end ContentAddressed
