import ContentAddressed.Proofs.Command.Arguments
import ContentAddressed.Proofs.Store.Shared

/-!
# Processes over one directory

What runs of the program do to a directory that they share: one that puts a file adds the blocks of
the file, and one that fetches adds nothing.
-/

namespace ContentAddressed

/-- A run of the program that keeps blocks in one directory and reaches no peer. -/
structure Process (path : FilePath) where
  peer : Peer
  fillers : Fillers
  before : FileSystem
  arguments : List String
  invocation : Invocation
  config : Config
  reads : CommandLine.read arguments = .invoke invocation
  loads : Command.loadConfig before invocation.config invocation.store = .ok config
  directory : config.store.directory.map FilePath.ofText = some path
  alone : config.store.remote = none

namespace Process

variable {path : FilePath} (p : Process path)

def session : Session := (Session.start p.peer p.fillers p.before p.arguments).1

def after : FileSystem := (Session.start p.peer p.fillers p.before p.arguments).2

def disk (opened : FileSystem) : Disk :=
  ⟨p.config.store.directory.getD "", p.config.store.mmapThreshold, opened.folder path⟩

theorem ofText_path_disk (opened : FileSystem) : FilePath.ofText (p.disk opened).path = path := by
  obtain ⟨text, htext, hpath⟩ := Option.map_eq_some_iff.mp p.directory
  rw [disk, htext]
  exact hpath

theorem start_eq : Session.start p.peer p.fillers p.before p.arguments =
    (Session.ofRun (p.invocation.command.run p.peer p.fillers p.before p.config).1,
      (p.invocation.command.run p.peer p.fillers p.before p.config).2) := by
  rw [Session.start, p.reads]
  simp only [p.loads]

theorem openStore_eq : Command.openStore p.peer p.before p.config =
    match p.before.makeFolders path with
    | .ok opened => .ok (Store.overDisk (p.disk opened) [] {}, opened)
    | .error e => .error (.unusableStore (.io e)) := by
  obtain ⟨text, htext, hpath⟩ := Option.map_eq_some_iff.mp p.directory
  rw [Command.openStore, if_neg (by simp [htext]), Store.openChain, htext, p.alone]
  simp only [Store.cachedDisk, FileSystem.openDisk, hpath, disk, htext]
  cases p.before.makeFolders path with
  | error e => rfl
  | ok opened => rfl

theorem exists_opened (hcode : p.session.code = 0) :
    ∃ opened, p.before.makeFolders path = .ok opened := by
  rw [session, start_eq, Command.run, openStore_eq] at hcode
  cases hfolders : p.before.makeFolders path with
  | ok opened => exact ⟨opened, rfl⟩
  | error e =>
    rw [hfolders] at hcode
    cases hcode

theorem run_put {file : String} {encrypt : Bool} {blockSize : Option Nat} {opened : FileSystem}
    {data : Bytes} {t : FileTree} (hcommand : p.invocation.command = .put file encrypt blockSize)
    (hopened : p.before.makeFolders path = .ok opened) (hread : opened.readAt file = .ok data)
    (hbuild : FileTree.Layout.build
      ⟨p.config.crypto, blockSize.getD p.config.store.blockSize, encrypt⟩ p.fillers data = .ok t) :
    p.invocation.command.run p.peer p.fillers p.before p.config =
      ((Command.putTree (Store.overDisk (p.disk opened) [] {}) t).1.map fun _ =>
          { printed := Report.print (Report.put t data) },
        (Command.putTree (Store.overDisk (p.disk opened) [] {}) t).2.save opened) := by
  rw [Command.run, openStore_eq, hopened, hcommand]
  simp only [Command.runPut, hread, hbuild]

end Process

/-- A process that fetches what a link reaches into a file. -/
structure Fetch (path : FilePath) extends Process path where
  link : String
  out : String
  command : invocation.command = .fetch (some link) none (some out) none

namespace Fetch

variable {path : FilePath} (p : Fetch path)

/-- The files as they are with the data in the file that is asked for. -/
def deliver (data : Bytes) : Except IoError FileSystem := do
  let opened ← p.before.makeFolders path
  opened.writeAt p.out data

def Reports (root : String) (length : Nat) : Prop :=
  ∃ names, p.session.printed = Report.print (.object [("root", .text root),
    ("plaintext", .list names), ("opaque", .list []), ("assembled_bytes", .number length)])

variable {p}

/-- Where the walk finds a whole file, the fetch writes it out and changes nothing else. -/
theorem effect {root : Link} (hroot : root.Valid ∧ root.Canonical)
    (hlink : p.link = Base64.common.encode root.frame) {opened after : FileSystem}
    (hopened : p.before.makeFolders path = .ok opened)
    (hholds : ∀ e ∈ opened.folder path, (opened.folder path).holds e.1)
    {r : WalkResult} (hfetch : (Store.overDisk (p.disk opened) [] {}).fetch none none root =
      (.ok r, Store.overDisk (p.disk opened) [] {}))
    (hlocked : r.lockedEntries = []) {data : Bytes} (hdata : r.assemble root.target = .ok data)
    (hout : opened.writeAt p.out data = .ok after) :
    p.session.code = 0 ∧ p.Reports root.target data.length ∧ p.after = after := by
  have hsave : (Store.overDisk (p.disk opened) [] {}).save opened = opened := by
    change opened.fill (FilePath.ofText (p.disk opened).path) _ _ = opened
    rw [p.ofText_path_disk]
    exact FileSystem.fill_of_holds hholds
  have hnames : r.lockedNames = [] := by
    rw [WalkResult.lockedNames, hlocked, List.map_nil]
  have hrun : p.invocation.command.run p.peer p.fillers p.before p.config =
      (.ok { printed := Report.print (Report.fetch root r (some data)) }, after) := by
    have hcode : Command.fetchCode r = 0 := by simp [Command.fetchCode, hnames]
    rw [Command.run, Process.openStore_eq, hopened, p.command, hlink]
    simp only [Command.runFetch, Command.rootLink_encode hroot, hfetch, hsave,
      Command.reportFetch, hdata, Command.writeOutput, hout, hcode]
  rw [Reports, Process.session, Process.after, Process.start_eq, hrun]
  refine ⟨rfl, ⟨r.blockNames.map Json.text, ?_⟩, rfl⟩
  simp [Session.ofRun, Report.fetch, hnames]

end Fetch

/-- A process that puts a file and ends well. -/
structure Put (path : FilePath) extends Process path where
  file : String
  encrypt : Bool
  blockSize : Option Nat
  command : invocation.command = .put file encrypt blockSize
  code : toProcess.session.code = 0

namespace Put

variable {path : FilePath} (p : Put path)

def layout : FileTree.Layout :=
  ⟨p.config.crypto, p.blockSize.getD p.config.store.blockSize, p.encrypt⟩

/-- The content of the file, which is read once the directory is there. -/
def data? : Option Bytes :=
  (p.before.makeFolders path).toOption.bind fun opened => (opened.readAt p.file).toOption

def tree? : Option FileTree :=
  p.data?.bind fun data => (p.layout.build p.fillers data).toOption

/-- What a put prints: the name of the root, the link to it, and how much was stored. -/
def Prints (root link : String) (length : Nat) : Prop :=
  ∃ blocks, p.session.printed = Report.print (.object [("root", .text root),
    ("link", .text link), ("blocks", .number blocks), ("bytes", .number length)])

def nodes : List FileNode := p.tree?.elim [] FileTree.nodes

def writes : List (String × Bytes) := p.tree?.elim [] FileTree.writes

structure Made (opened : FileSystem) (data : Bytes) (t : FileTree) : Prop where
  folders : p.before.makeFolders path = .ok opened
  read : opened.readAt p.file = .ok data
  built : p.layout.build p.fillers data = .ok t

variable {p} {opened : FileSystem} {data : Bytes} {t : FileTree}

theorem Made.data?_eq (h : p.Made opened data t) : p.data? = some data := by
  rw [data?, h.folders]
  change (opened.readAt p.file).toOption = _
  rw [h.read]
  rfl

theorem Made.tree?_eq (h : p.Made opened data t) : p.tree? = some t := by
  rw [tree?, h.data?_eq]
  change (p.layout.build p.fillers data).toOption = _
  rw [h.built]
  rfl

theorem Made.nodes_eq (h : p.Made opened data t) : p.nodes = t.nodes := by
  rw [nodes, h.tree?_eq]
  rfl

theorem Made.writes_eq (h : p.Made opened data t) : p.writes = t.writes := by
  rw [writes, h.tree?_eq]
  rfl

theorem Made.eq_of_readAt (h : p.Made opened data t) {content : Bytes}
    (hread : p.before.readAt p.file = .ok content) : content = data := by
  have hlater := (FileSystem.makeFolders_effect h.folders).1.readAt hread
  exact Except.ok.inj (hlater.symm.trans h.read)

theorem run_eq (hopened : p.before.makeFolders path = .ok opened) :
    p.invocation.command.run p.peer p.fillers p.before p.config =
      Command.runPut p.fillers p.config (Store.overDisk (p.disk opened) [] {}) opened p.file
        p.encrypt p.blockSize := by
  rw [Command.run, Process.openStore_eq, hopened, p.command]

/-- The code tells that the file was read and cut into blocks. -/
theorem exists_made (p : Put path) : ∃ opened data t, p.Made opened data t := by
  obtain ⟨opened, hopened⟩ := p.exists_opened p.code
  have hcode := p.code
  rw [Process.session, Process.start_eq, run_eq hopened, Command.runPut] at hcode
  cases hread : opened.readAt p.file with
  | error e =>
    simp only [hread] at hcode
    cases hcode
  | ok data =>
    cases hbuild : p.layout.build p.fillers data with
    | error e =>
      rw [layout] at hbuild
      simp only [hread, hbuild] at hcode
      cases hcode
    | ok t => exact ⟨opened, data, t, hopened, hread, hbuild⟩

theorem Made.prints (h : p.Made opened data t) :
    p.Prints t.root.target (Base64.common.encode t.root.frame) data.length := by
  refine ⟨t.size, ?_⟩
  have hcode := p.code
  rw [Process.session, Process.start_eq, p.run_put p.command h.folders h.read h.built] at hcode ⊢
  cases hput : (Command.putTree (Store.overDisk (p.disk opened) [] {}) t).1 with
  | error e =>
    rw [hput] at hcode
    cases hcode
  | ok => rfl

/-- A put adds the blocks of its file to the directory. -/
theorem Made.isOf_after (h : p.Made opened data t) {u w : Writes} (hw : w.Coherent) (hu : u ⊆ w)
    (hbefore : (p.before.folder path).IsOf u) (hwrites : ∀ e ∈ t.writes, e ∈ w) :
    (p.after.folder path).IsOf (u.add t.writes) := by
  have hopened : (opened.folder path).IsOf u := fun e =>
    ((FileSystem.makeFolders_effect h.folders).2 e).trans (hbefore e)
  obtain ⟨s, m, f, hstore, hflush, hf⟩ :=
    Store.storeEach_flush (d := p.disk opened) hw hu hopened hwrites
  have hput : Command.putTree (Store.overDisk (p.disk opened) [] {}) t =
      (.ok (), Store.overDisk { p.disk opened with folder := f } [] m) := by
    rw [Command.putTree, Store.storeFile, hstore]
    simp only [hflush]
    rfl
  have hafter : p.after = opened.fill path (opened.folder path) f := by
    have hpath := p.ofText_path_disk opened
    rw [Process.after, Process.start_eq, p.run_put p.command h.folders h.read h.built, hput]
    change opened.fill (FilePath.ofText (p.disk opened).path) _ f = _
    rw [hpath]
  rw [hafter]
  exact FileSystem.isOf_fill hw (u.subset_add _) (Set.union_subset hu hwrites) hopened hopened hf

end Put

end ContentAddressed
