import ContentAddressed.Command.Error
import ContentAddressed.Command.Report
import ContentAddressed.Config.Read
import ContentAddressed.Store.Fetch
import ContentAddressed.Store.Open

/-!
# Commands

What each command does to the files of a working directory, and what it prints. Every command opens
its store anew.
-/

namespace ContentAddressed

inductive Command where
  /-- Cut a file into blocks and store them. -/
  | put (file : String) (encrypt : Bool) (blockSize : Option Nat)
  /-- Print or write the bytes of one block. -/
  | get (name : String) (out : Option String)
  /-- Walk from a root, given by link or by name, and report what was found. -/
  | fetch (link name : Option String) (out : Option String) (maxDepth : Option Nat)
  /-- Print the names of the blocks, or their number. -/
  | list (count : Bool)
  deriving DecidableEq, Repr

structure Ending where
  code : Nat := 0
  printed : Bytes := []
  /-- A line about a block that is absent, apart from what is printed. -/
  notice : Option String := none
  deriving DecidableEq, Repr

abbrev Run := Except CommandError Ending × FileSystem

namespace Command

def readConfig (fs : FileSystem) (path : String) : Except Error Config := do
  let bs ← (fs.readAt path).mapError fun e => .config (.unreadable path e)
  match Utf8.decode? bs with
  | some text => Config.read text
  | none => throw (.config (.unreadable path .notUtf8))

/-- The settings of a file, or the standard ones; a block directory of its own comes first. -/
def loadConfig (fs : FileSystem) (path store : Option String) : Except CommandError Config := do
  let config ← match path with
    | some path => (readConfig fs path).mapError (.unusableConfig path)
    | none => pure {}
  return { config with store.directory := store.or config.store.directory }

/-- The store of the settings; one that would only be in memory is refused. -/
def openStore (peer : Peer) (fs : FileSystem) (config : Config) :
    Except CommandError (Store Backing × FileSystem) :=
  if config.store.directory.isNone ∧ config.store.remote.isNone then .error .noStore
  else (Store.openChain config.store peer fs).mapError .unusableStore

def writeOutput (fs : FileSystem) (out : Option String) (bs : Bytes) : Run :=
  match out with
  | none => (.ok { printed := bs }, fs)
  | some path =>
    match fs.writeAt path bs with
    | .ok fs => (.ok {}, fs)
    | .error e => (.error (.unwritable path e), fs)

/-- Store the blocks of a file and bring them to the innermost medium. -/
def putTree (s : Store Backing) (t : FileTree) : Except CommandError Unit × Store Backing :=
  match s.storeFile t with
  | (.error e, s) => (.error (.failed e), s)
  | (.ok (), s) =>
    let (r, s) := s.flush
    (r.mapError .unflushed, s)

def runPut (fillers : Fillers) (config : Config) (s : Store Backing) (fs : FileSystem)
    (file : String) (encrypt : Bool) (blockSize : Option Nat) : Run :=
  let layout : FileTree.Layout := ⟨config.crypto, blockSize.getD config.store.blockSize, encrypt⟩
  match fs.readAt file with
  | .error e => (.error (.unreadable file e), fs)
  | .ok data =>
    match layout.build fillers data with
    | .error e => (.error (.failed e), fs)
    | .ok t =>
      let (r, s) := putTree s t
      (r.map fun _ => { printed := Report.print (Report.put t data) }, s.save fs)

def runGet (s : Store Backing) (fs : FileSystem) (name : String) (out : Option String) : Run :=
  let (r, s) := s.retrieve name
  let fs := s.save fs
  match r with
  | .ok v => writeOutput fs out v.bytes
  | .error (.noSuchBlock name) => (.ok { code := 1, notice := some s!"NOT FOUND: {name}" }, fs)
  | .error e => (.error (.failed e), fs)

/-- The link to start from: a link frame in text form, or a bare name. -/
def rootLink (link name : Option String) : Except CommandError Link :=
  match link, name with
  | some text, _ => do
    match Base64.common.decode? (Text.trim text) with
    | none => throw .linkText
    | some frame => (Link.parse frame).mapError .linkFrame
  | none, some name => (Link.Draft.build ⟨some name, none⟩).mapError .failed
  | none, none => .error .noRoot

/-- The code of a walk: nodes that stayed closed show in it. -/
def fetchCode (r : WalkResult) : Nat := if r.lockedNames.isEmpty then 0 else 2

/-- Report a walk, and write the content of its root if that is asked for. -/
def reportFetch (fs : FileSystem) (root : Link) (r : WalkResult) (out : Option String) : Run :=
  let ending (written : Option Bytes) : Ending :=
    { code := fetchCode r, printed := Report.print (Report.fetch root r written) }
  match out with
  | none => (.ok (ending none), fs)
  | some path =>
    match r.assemble root.target with
    | .error e => (.error (.failed e), fs)
    | .ok content =>
      match writeOutput fs (some path) content with
      | (.ok _, fs) => (.ok (ending (some content)), fs)
      | (.error e, fs) => (.error e, fs)

def runFetch (s : Store Backing) (fs : FileSystem) (link name out : Option String)
    (maxDepth : Option Nat) : Run :=
  match rootLink link name with
  | .error e => (.error e, fs)
  | .ok root =>
    let (r, s) := s.fetch none maxDepth root
    let fs := s.save fs
    match r with
    | .error e => (.error (.failed e), fs)
    | .ok r => reportFetch fs root r out

/-- The names on the outermost medium of a chain that can tell. -/
def listing (s : Store Backing) : Except CommandError (List String) :=
  match s.localNames with
  | .error e => .error (.failed e)
  | .ok none => .error .noListing
  | .ok (some names) => .ok names

def runList (s : Store Backing) (fs : FileSystem) (count : Bool) : Run :=
  ((listing s).map fun names =>
    { printed := Report.lines (if count then [toString names.length] else names) }, fs)

def run (peer : Peer) (fillers : Fillers) (fs : FileSystem) (config : Config) (c : Command) : Run :=
  match openStore peer fs config with
  | .error e => (.error e, fs)
  | .ok (s, fs) =>
    match c with
    | put file encrypt blockSize => runPut fillers config s fs file encrypt blockSize
    | get name out => runGet s fs name out
    | fetch link name out maxDepth => runFetch s fs link name out maxDepth
    | list count => runList s fs count

end Command

end ContentAddressed
