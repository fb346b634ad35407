import ContentAddressed.Files.Folder
import ContentAddressed.Text.Blank

/-!
# Trees of files

Files and directories below a working directory, by path. Paths are relative; there are no links.
-/

namespace ContentAddressed

abbrev FilePath := List FileName

namespace FilePath

/-- The path that a text names, without empty and `.` parts; `..` takes back one part. -/
def ofText (text : String) : FilePath :=
  ((Text.split '/' text).foldl (fun (done : FilePath) part =>
    if part = "" ∨ part = "." then done
    else if part = ".." then done.tail
    else FileName.text part :: done) []).reverse

end FilePath

/-- The entries below the working directory, each by its path. -/
structure FileSystem where
  entries : List (FilePath × Entry) := []

namespace FileSystem

def find? (fs : FileSystem) (path : FilePath) : Option Entry :=
  if path.isEmpty then some .folder else fs.entries.lookup path

def set (fs : FileSystem) (path : FilePath) (entry : Entry) : FileSystem :=
  ⟨(path, entry) :: fs.entries.filter fun e => e.1 != path⟩

/-- Whether every directory on the way to a path is there. -/
def reach (fs : FileSystem) (path : FilePath) : Except IoError Unit :=
  (List.range path.length).forM fun n =>
    match fs.find? (path.take n) with
    | some .folder => .ok ()
    | some (.file _) => .error .notDirectory
    | none => .error .notFound

def checkNames (path : FilePath) : Except IoError Unit :=
  if path.all fun name => name.size ≤ FileName.limit then .ok () else .error .nameTooLong

def read (fs : FileSystem) (path : FilePath) : Except IoError Bytes := do
  checkNames path
  fs.reach path
  match fs.find? path with
  | some (.file content) => .ok content
  | some .folder => .error .isDirectory
  | none => .error .notFound

/-- The path that a text names, where each part but the last one has to be a directory. A slash at
the end asks for a directory. -/
def resolve (fs : FileSystem) (text : String) : Except IoError FilePath :=
  if text.isEmpty then .error .notFound
  else (Text.split '/' text).foldlM (fun (path : FilePath) part =>
    match fs.find? path with
    | none => .error .notFound
    | some (.file _) => .error .notDirectory
    | some .folder =>
      if part = "" ∨ part = "." then .ok path
      else if part = ".." then .ok path.dropLast
      else if (FileName.text part).size ≤ FileName.limit then .ok (path ++ [.text part])
      else .error .nameTooLong) []

def readAt (fs : FileSystem) (text : String) : Except IoError Bytes := do
  fs.read (← fs.resolve text)

def write (fs : FileSystem) (path : FilePath) (content : Bytes) : Except IoError FileSystem := do
  checkNames path
  fs.reach path
  match fs.find? path with
  | some .folder => .error .isDirectory
  | _ => .ok (fs.set path (.file content))

def writeAt (fs : FileSystem) (text : String) (content : Bytes) : Except IoError FileSystem := do
  let path ← fs.resolve (String.ofList (text.toList.reverse.dropWhile (· == '/')).reverse)
  if text.endsWith "/" then throw .isDirectory
  fs.write path content

def makeFolders (fs : FileSystem) (path : FilePath) : Except IoError FileSystem := do
  checkNames path
  (List.range (path.length + 1)).foldlM (fun fs n =>
    match fs.find? (path.take n) with
    | some .folder => .ok fs
    | some (.file _) => .error (if n < path.length then .notDirectory else .alreadyExists)
    | none => .ok (fs.set (path.take n) .folder)) fs

/-- Write a file, making the directories on the way to it. -/
def place (fs : FileSystem) (path : FilePath) (content : Bytes) : Except IoError FileSystem := do
  let fs ← fs.makeFolders path.dropLast
  fs.write path content

def folder (fs : FileSystem) (path : FilePath) : Folder :=
  fs.entries.filterMap fun e =>
    if e.1.length = path.length + 1 ∧ e.1.take path.length = path then
      e.1.getLast?.map fun name => (name, e.2)
    else none

/-- Set the entries of a directory that were missing or empty before. -/
def fill (fs : FileSystem) (path : FilePath) (before after : Folder) : FileSystem :=
  after.foldl (fun fs e =>
    if before.holds e.1 then fs else fs.set (path ++ [e.1]) e.2) fs

def remove (fs : FileSystem) (path : FilePath) : Except IoError FileSystem := do
  fs.reach path
  match fs.find? path with
  | some (.file _) => .ok ⟨fs.entries.filter fun e => e.1 != path⟩
  | some .folder => .error .isDirectory
  | none => .error .notFound

def files (fs : FileSystem) : List (FilePath × Nat) :=
  fs.entries.filterMap fun e =>
    match e.2 with
    | .file content => some (e.1, content.length)
    | .folder => none

end FileSystem

end ContentAddressed
