import ContentAddressed.Config.Basic
import ContentAddressed.Files.Tree
import ContentAddressed.Medium.Backing
import ContentAddressed.Store.Basic

/-!
# Opening stores

The chains that settings describe, and the exchange of directories between their disks and the tree
of files.
-/

namespace ContentAddressed

/-- A disk over a directory, which is made if it is missing. -/
def FileSystem.openDisk (fs : FileSystem) (directory : String) (threshold : Nat) :
    Except Error (Disk × FileSystem) := do
  let path := FilePath.ofText directory
  let fs ← (fs.makeFolders path).mapError .io
  return (⟨directory, threshold, fs.folder path⟩, fs)

def Backing.reload (fs : FileSystem) : Backing → Backing
  | .disk d => .disk { d with folder := fs.folder (FilePath.ofText d.path) }
  | b => b

namespace Store

def memory : Store Backing := plain (.memory {})

def cachedDisk (fs : FileSystem) (directory : String) (threshold : Nat) :
    Except Error (Store Backing × FileSystem) := do
  let (disk, fs) ← fs.openDisk directory threshold
  return (withCache (.disk disk) memory, fs)

/-- Memory, in front of a disk if there is a directory, in front of a remote if there is one. -/
def openChain (config : StoreConfig) (peer : Peer) (fs : FileSystem) :
    Except Error (Store Backing × FileSystem) := do
  let (near, fs) ← match config.directory with
    | some directory => cachedDisk fs directory config.mmapThreshold
    | none => .ok (memory, fs)
  match config.remote with
  | some remote => return (withCache (.remote (Remote.connect remote peer)) near, fs)
  | none => return (near, fs)

def reload (fs : FileSystem) (s : Store Backing) : Store Backing := s.mapMedia (Backing.reload fs)

/-- The tree of files after what the disks of a chain wrote. -/
def save (fs : FileSystem) (s : Store Backing) : FileSystem :=
  s.levels.foldl (fun done level =>
    match level.medium with
    | .disk d =>
      let path := FilePath.ofText d.path
      done.fill path (fs.folder path) d.folder
    | _ => done) fs

end Store

end ContentAddressed
