import ContentAddressed.Proofs.Command.Process

/-!
# Files that were put stay fetchable

Processes put files into one directory, one after another and each with settings of its own. The
directory then has the blocks of all files, so the link that any of the processes printed leads back
to its file, whichever other files were put before or after it.
-/

namespace ContentAddressed

namespace FileTree

theorem Spells.valid {pool : List FileNode} (hsound : ∀ n ∈ pool, n.Sound) {h : Nat} {l : Link}
    {data : Bytes} (hl : Spells pool h l data) : l.Valid ∧ l.Canonical := by
  cases h with
  | zero =>
    obtain ⟨n, hn, rfl, -⟩ := hl
    exact (hsound n hn).valid_link
  | succ h =>
    obtain ⟨n, hn, rfl, -⟩ := hl
    exact (hsound n hn).valid_link

/-- A walk over a chain of memory and disks that serves the blocks of a file finds the file, and
leaves the chain as it is. -/
theorem exists_fetch_of_isLocal {l : Layout} {fillers : Fillers} {data : Bytes} {t : FileTree}
    (hbuild : l.build fillers data = .ok t) (hapart : NamesApart t.nodes)
    (hclosed : ∀ n ∈ t.nodes, ∀ e ∈ n.enclosed, ∀ a b, Block.parse a e.ciphertext ≠ .ok b)
    {s : Store Backing} (hs : s.IsLocal) (hserves : s.Serves t.writes) :
    ∃ r, s.fetch none none t.root = (.ok r, s) ∧ r.lockedEntries = [] ∧
      r.assemble t.root.target = .ok data := by
  obtain ⟨hsound, height, hroot⟩ := Layout.exists_spells_of_build hbuild
  have hsealed : ∀ e ∈ t.encrypted, ∀ a b, Block.parse a e.ciphertext ≠ .ok b := by
    intro e he
    obtain ⟨n, hn, hen⟩ := List.mem_filterMap.mp he
    exact hclosed n hn e hen
  obtain ⟨r, s', hfetch, hlocked, hdata⟩ :=
    exists_fetch_of_spells hsound hapart hsealed hroot hserves
  obtain rfl : s = s' := by rw [← Store.fetch_state hs none none t.root, hfetch]
  exact ⟨r, hfetch, hlocked, hdata⟩

end FileTree

theorem FileNode.writable_name (n : FileNode) : Disk.Writable n.name := by
  obtain ⟨block, enclosed⟩ := n
  cases enclosed with
  | none => exact block.fingerprint.writable_encode
  | some e => exact e.name.writable_encode

namespace Put

variable {path : FilePath} {p : Put path} {puts : List (Put path)} {f g : Folder}

theorem sound_of_mem_nodes {n : FileNode} (hn : n ∈ p.nodes) : n.Sound := by
  obtain ⟨opened, data, t, hmade⟩ := p.exists_made
  rw [hmade.nodes_eq] at hn
  exact (FileTree.Layout.exists_spells_of_build hmade.built).1 n hn

theorem exists_of_mem_writes {e : String × Bytes} (he : e ∈ p.writes) :
    ∃ n ∈ p.nodes, e = (n.name, n.bytes) := by
  obtain ⟨opened, data, t, hmade⟩ := p.exists_made
  rw [hmade.writes_eq] at he
  rw [hmade.nodes_eq]
  exact FileTree.exists_of_mem_writes he

def allWrites (puts : List (Put path)) : Writes := {e | e ∈ puts.flatMap Put.writes}

theorem coherent_allWrites (hbytes : ∀ n ∈ puts.flatMap Put.nodes, ∀ m ∈ puts.flatMap Put.nodes,
    n.name = m.name → n.bytes = m.bytes) : (allWrites puts).Coherent := by
  have hnode : ∀ e ∈ allWrites puts,
      ∃ n ∈ puts.flatMap Put.nodes, n.Sound ∧ e = (n.name, n.bytes) := by
    intro e he
    obtain ⟨p, hp, he⟩ := List.mem_flatMap.mp he
    obtain ⟨n, hn, rfl⟩ := exists_of_mem_writes he
    exact ⟨n, List.mem_flatMap.mpr ⟨p, hp, hn⟩, sound_of_mem_nodes hn, rfl⟩
  constructor
  · intro name bs bs' h h'
    obtain ⟨n, hn, -, heq⟩ := hnode _ h
    obtain ⟨m, hm, -, heq'⟩ := hnode _ h'
    cases heq
    obtain ⟨hname, rfl⟩ := Prod.mk.inj heq'
    exact hbytes n hn m hm hname
  · intro name bs h
    obtain ⟨n, -, hsound, heq⟩ := hnode _ h
    cases heq
    exact hsound.bytes_ne_nil
  · intro name bs h
    obtain ⟨n, -, -, heq⟩ := hnode _ h
    cases heq
    exact n.writable_name

/-- Processes one after another. Each finds in the directory what the one before it left there; what
else changes in between does not matter. -/
inductive Runs : Folder → List (Put path) → Folder → Prop
  | nil {f : Folder} : Runs f [] f
  | cons {f g : Folder} {p : Put path} {ps : List (Put path)}
    (hbefore : ∀ e, e ∈ p.before.folder path ↔ e ∈ f) (hrest : Runs (p.after.folder path) ps g) :
    Runs f (p :: ps) g

/-- The directory gets the blocks of every file, and nothing else. -/
theorem Runs.isOf {t w : Writes} (hw : w.Coherent) (ht : t ⊆ w)
    (hwrites : ∀ p ∈ puts, ∀ e ∈ p.writes, e ∈ w) (h : Runs f puts g) (hf : f.IsOf t) :
    g.IsOf (t.add (puts.flatMap Put.writes)) := by
  induction h generalizing t with
  | nil => simpa using hf
  | @cons f g p ps hbefore _ ih =>
    obtain ⟨hhead, hrest⟩ := List.forall_mem_cons.mp hwrites
    obtain ⟨opened, data, tree, hmade⟩ := p.exists_made
    rw [hmade.writes_eq] at hhead
    have hafter := hmade.isOf_after hw ht (fun e => (hbefore e).trans (hf e)) hhead
    have hset : t.add ((p :: ps).flatMap Put.writes) =
        (t.add tree.writes).add (ps.flatMap Put.writes) := by
      rw [List.flatMap_cons, hmade.writes_eq, Writes.add_append]
    rw [hset]
    exact ih (Set.union_subset ht hhead) hrest hafter

/-- Every file that was put can be fetched with the link that was printed for it. Arguments that
name the link are read, and a process with such arguments ends well, reports no closed node and
leaves exactly the bytes of the file in the file that is asked for, if that can be written. -/
theorem Runs.fetchable (h : Runs [] puts g) (hnames : FileTree.NamesApart (puts.flatMap Put.nodes))
    (hbytes : ∀ n ∈ puts.flatMap Put.nodes, ∀ m ∈ puts.flatMap Put.nodes,
      n.name = m.name → n.bytes = m.bytes)
    (hclosed : ∀ n ∈ puts.flatMap Put.nodes, ∀ e ∈ n.enclosed, ∀ a b,
      Block.parse a e.ciphertext ≠ .ok b) (hp : p ∈ puts) :
    ∃ data root link, p.data? = some data ∧
      (∀ content, p.before.readAt p.file = .ok content → content = data) ∧
      p.Prints root link data.length ∧
      (∀ directory out, directory ≠ "" ∧ Grammar.looksLikeOption directory = false →
        out ≠ "" ∧ Grammar.looksLikeOption out = false →
          CommandLine.read (CommandLine.fetchArguments directory link out) =
            .invoke ⟨none, some directory, .fetch (some link) none (some out) none⟩) ∧
      ∀ q : Fetch path, q.link = link → (∀ e, e ∈ q.before.folder path ↔ e ∈ g) →
        ∀ after, q.deliver data = .ok after →
          q.session.code = 0 ∧ q.Reports root data.length ∧ q.after = after ∧
            q.after.readAt q.out = .ok data := by
  obtain ⟨opened, data, t, hmade⟩ := p.exists_made
  obtain ⟨hsound, height, hspells⟩ := FileTree.Layout.exists_spells_of_build hmade.built
  have hroot := hspells.valid hsound
  have hw := coherent_allWrites hbytes
  have hall : ∀ p ∈ puts, ∀ e ∈ p.writes, e ∈ allWrites puts := fun p hp e he =>
    List.mem_flatMap.mpr ⟨p, hp, he⟩
  have hg : g.IsOf (allWrites puts) := by
    have hempty : Folder.IsOf ∅ [] := fun e => by simp
    simpa [Writes.add, allWrites] using h.isOf hw (Set.empty_subset _) hall hempty
  have hpool : ∀ n ∈ t.nodes, n ∈ puts.flatMap Put.nodes := fun n hn =>
    List.mem_flatMap.mpr ⟨p, hp, hmade.nodes_eq ▸ hn⟩
  refine ⟨data, t.root.target, Base64.common.encode t.root.frame, hmade.data?_eq,
    fun content hread => hmade.eq_of_readAt hread, hmade.prints,
    fun directory out hdirectory hout => CommandLine.read_fetchArguments hdirectory
      (Grammar.looksLikeOption_encode _) hout, ?_⟩
  intro q hlink hbefore after hdeliver
  obtain ⟨opened', hopened, hout⟩ := Result.bind_eq_ok_iff.mp hdeliver
  have hfolder : (opened'.folder path).IsOf (allWrites puts) := fun e =>
    ((FileSystem.makeFolders_effect hopened).2 e).trans ((hbefore e).trans (hg e))
  have hserves : (Store.overDisk (q.disk opened') [] {}).Serves t.writes :=
    Store.serves_overDisk hw (Set.Subset.refl _) hfolder fun e he =>
      hall p hp e (hmade.writes_eq ▸ he)
  obtain ⟨r, hfetch, hlocked, hdata⟩ := FileTree.exists_fetch_of_isLocal hmade.built
    (fun n hn m hm => hnames n (hpool n hn) m (hpool m hm)) (fun n hn => hclosed n (hpool n hn))
    (Store.isLocal_overDisk _ _ _) hserves
  obtain ⟨hcode, hreports, hafter⟩ := Fetch.effect hroot hlink hopened
    (fun e he => hfolder.holds_of_mem hw (Set.Subset.refl _) he) hfetch hlocked hdata hout
  exact ⟨hcode, hreports, hafter, hafter ▸ FileSystem.readAt_of_writeAt hout⟩

/-- Two files in a working directory that has no blocks yet. -/
def twoFiles : FileSystem :=
  ⟨[([.text "a"], .file FileTree.Forked.data), ([.text "b"], .file [4])]⟩

def opened : FileSystem := twoFiles.set [.text "blocks"] .folder

/-- Each block of the first file has padding of its own. -/
def firstRun : Process [.text "blocks"] where
  peer := .unreachable
  fillers := .counting
  before := twoFiles
  arguments := ["--store", "blocks", "put", "a", "--block-size", "32"]
  invocation := ⟨none, some "blocks", .put "a" false (some 32)⟩
  config := { store := { directory := some "blocks" } }
  reads := by decide +kernel
  loads := rfl
  directory := by decide
  alone := rfl

def afterFirst : FileSystem :=
  (Command.putTree (Store.overDisk (firstRun.disk opened) [] {}) FileTree.Forked.tree).2.save opened

theorem run_firstRun : firstRun.invocation.command.run firstRun.peer firstRun.fillers
    firstRun.before firstRun.config =
      ((Command.putTree (Store.overDisk (firstRun.disk opened) [] {}) FileTree.Forked.tree).1.map
        fun _ => { printed := Report.print (Report.put FileTree.Forked.tree FileTree.Forked.data) },
        afterFirst) :=
  firstRun.run_put rfl rfl (by decide +kernel) FileTree.Forked.build_eq

theorem code_firstRun : firstRun.session.code = 0 := by
  rw [Process.session, Process.start_eq, run_firstRun]
  decide +kernel

def firstOfTwo : Put [.text "blocks"] where
  toProcess := firstRun
  file := "a"
  encrypt := false
  blockSize := some 32
  command := rfl
  code := code_firstRun

theorem after_firstOfTwo : firstOfTwo.after = afterFirst := by
  change firstRun.after = _
  rw [Process.after, Process.start_eq, run_firstRun]

theorem nodes_firstOfTwo : firstOfTwo.nodes = FileTree.Forked.tree.nodes :=
  Made.nodes_eq ⟨rfl, by decide +kernel, FileTree.Forked.build_eq⟩

def secondOfTwo : Put [.text "blocks"] where
  peer := .unreachable
  fillers := ([9] : Bytes)
  before := afterFirst
  arguments := ["put", "--block-size", "32", "b", "--store", "blocks"]
  invocation := ⟨none, some "blocks", .put "b" false (some 32)⟩
  config := { store := { directory := some "blocks" } }
  reads := by decide +kernel
  loads := rfl
  directory := by decide
  alone := rfl
  file := "b"
  encrypt := false
  blockSize := some 32
  command := rfl
  code := by decide +kernel

/-- A fetch that finds what the second put left, with a link that its arguments name. -/
def fetchAfterTwo (link : String)
    (reads : CommandLine.read (CommandLine.fetchArguments "blocks" link "out") =
      .invoke ⟨none, some "blocks", .fetch (some link) none (some "out") none⟩) :
    Fetch [.text "blocks"] where
  peer := .unreachable
  fillers := ([] : Bytes)
  before := secondOfTwo.after
  arguments := CommandLine.fetchArguments "blocks" link "out"
  invocation := ⟨none, some "blocks", .fetch (some link) none (some "out") none⟩
  config := { store := { directory := some "blocks" } }
  reads := reads
  loads := rfl
  directory := by decide
  alone := rfl
  link := link
  out := "out"
  command := rfl

/-- A file of two leaves and an index block that was put first is fetched after another one was
put. -/
theorem Runs.fetchable_first : firstOfTwo.nodes = FileTree.Forked.tree.nodes ∧
    ∃ q : Fetch [.text "blocks"],
      Runs [] [firstOfTwo, secondOfTwo] (secondOfTwo.after.folder [.text "blocks"]) ∧
        q.before = secondOfTwo.after ∧ q.out = "out" ∧ q.session.code = 0 ∧
        q.after.readAt "out" = .ok FileTree.Forked.data := by
  have hruns : Runs [] [firstOfTwo, secondOfTwo] (secondOfTwo.after.folder [.text "blocks"]) := by
    have hempty : twoFiles.folder [.text "blocks"] = [] := by decide +kernel
    refine .cons (fun e => ?_) (.cons (fun e => ?_) .nil)
    · change e ∈ twoFiles.folder [.text "blocks"] ↔ _
      rw [hempty]
    · rw [after_firstOfTwo]
      rfl
  have hapart : ∀ n ∈ [firstOfTwo, secondOfTwo].flatMap Put.nodes, n.enclosed = none ∧
      ∀ m ∈ [firstOfTwo, secondOfTwo].flatMap Put.nodes, n.name = m.name →
        n.block.frame = m.block.frame ∧ n.bytes = m.bytes := by
    simp only [← Option.isNone_iff_eq_none, List.flatMap_cons, nodes_firstOfTwo]
    decide +kernel
  have hdata : firstOfTwo.data? = some FileTree.Forked.data := by decide +kernel
  obtain ⟨data, root, link, hsome, -, -, hread, hfetch⟩ := hruns.fetchable
    (fun n hn m hm h => ((hapart n hn).2 m hm h).1) (fun n hn m hm h => ((hapart n hn).2 m hm h).2)
    (fun n hn e he => by simp [(hapart n hn).1] at he) List.mem_cons_self
  obtain rfl : FileTree.Forked.data = data := Option.some.inj (hdata.symm.trans hsome)
  have hwritable : (do
      let opened ← secondOfTwo.after.makeFolders [.text "blocks"]
      opened.writeAt "out" FileTree.Forked.data).isOk := by decide +kernel
  obtain ⟨after, hdeliver⟩ := Result.exists_of_isOk hwritable
  have hq := hread "blocks" "out" (by decide +kernel) (by decide +kernel)
  obtain ⟨hcode, -, -, hcontent⟩ :=
    hfetch (fetchAfterTwo link hq) rfl (fun e => Iff.rfl) after hdeliver
  exact ⟨nodes_firstOfTwo, fetchAfterTwo link hq, hruns, rfl, rfl, hcode, hcontent⟩

end Put

end ContentAddressed
