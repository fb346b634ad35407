import ContentAddressed.Proofs.Command.Process
import ContentAddressed.Proofs.Store.Fetch
import ContentAddressed.Proofs.Walk.Assembly
import ContentAddressed.Proofs.Walk.Locked

/-!
# How a fetch ends

A fetch that only reports tells by its code whether nodes stayed closed. One that writes a file has
to assemble the content first, and a closed node is among what it needs, so it ends well only where
the report has nothing closed to tell.
-/

namespace ContentAddressed

/-- No name of the result is reached from itself. -/
def WalkResult.Acyclic (r : WalkResult) : Prop := ∀ name, ¬ Relation.TransGen r.LinksTo name name

def WalkResult.ListsLocked (r : WalkResult) (names : List String) : Prop :=
  names.Nodup ∧ ∀ name, name ∈ names ↔ ∃ v, (name, Found.locked v) ∈ r.entries

namespace Walker

variable {σ : Type} {w : Walker σ} {root : Link} {store store' : σ} {r : WalkResult}
  {hs : w.Halts (.start root) store}

theorem whole_root_iff (h : w.fetch root store hs = (.ok r, store')) :
    r.Whole root.target ↔ r.lockedNames = [] ∧ r.Acyclic := by
  obtain ⟨hnodup, hreached⟩ := joined_of_fetch h
  have hfollowed := followed_of_fetch h
  exact WalkResult.whole_iff_of_reaches_all hnodup (hfollowed root (Or.inl rfl))
    (fun e he l hl => hfollowed l (Or.inr ⟨e, he, hl⟩)) hreached

theorem listsLocked_of_fetch (h : w.fetch root store hs = (.ok r, store')) :
    r.ListsLocked r.lockedNames := by
  have hnames := r.names_perm.nodup_iff.mpr (joined_of_fetch h).1
  exact ⟨(List.nodup_append.mp hnames).2.1, fun _ => WalkResult.mem_lockedNames_iff⟩

end Walker

namespace Command

variable {peer : Peer} {fillers : Fillers} {fs opened : FileSystem} {config : Config}
  {link name out : Option String} {maxDepth : Option Nat} {s s' : Store Backing} {root : Link}
  {r : WalkResult}

/-- What is printed of a walk, with how much was written if anything was asked for. -/
def report (root : Link) (r : WalkResult) (length : Option Nat) : Bytes :=
  Report.print (.object ([("root", .text root.target),
    ("plaintext", .list (r.blockNames.map Json.text)),
    ("opaque", .list (r.lockedNames.map Json.text))] ++
    (length.map fun n => ("assembled_bytes", Json.number n)).toList))

theorem fetchCode_eq (r : WalkResult) : fetchCode r = if r.lockedNames = [] then 0 else 2 := by
  simp [fetchCode]

/-- A fetch is a walk and its report, once the store is open and the root is known. -/
theorem run_fetch_eq (hopen : openStore peer fs config = .ok (s, opened))
    (hroot : rootLink link name = .ok root) (hwalk : s.fetch none maxDepth root = (.ok r, s')) :
    run peer fillers fs config (.fetch link name out maxDepth) =
      reportFetch (s'.save opened) root r out := by
  simp only [run, hopen, runFetch, hroot, hwalk]

theorem reportFetch_none : reportFetch fs root r none =
    (.ok { code := if r.lockedNames = [] then 0 else 2, printed := report root r none }, fs) := by
  rw [reportFetch, fetchCode_eq]
  rfl

theorem reportFetch_of_error {path : String} {e : Error} (h : r.assemble root.target = .error e) :
    reportFetch fs root r (some path) = (.error (.failed e), fs) := by
  simp only [reportFetch, h]

theorem reportFetch_of_assemble {path : String} {content : Bytes}
    (h : r.assemble root.target = .ok content) : reportFetch fs root r (some path) =
      match fs.writeAt path content with
      | .ok after =>
        (.ok { code := fetchCode r, printed := report root r (some content.length) }, after)
      | .error e => (.error (.unwritable path e), fs) := by
  simp only [reportFetch, h, writeOutput]
  cases fs.writeAt path content <;> rfl

/-- How a fetch ends whose walk succeeds. Without a file to write, it prints the report with exactly
the names that stayed closed, and the code is 2 if there are any and 0 otherwise. With a file to
write, it ends with 0 and the report where every node was opened, no name leads back to itself and
the file can be written; where a node stayed closed, or a name leads back to itself, it fails, and
neither prints a report nor writes the file. -/
theorem fetch_ends (fillers : Fillers) (hopen : openStore peer fs config = .ok (s, opened))
    (hroot : rootLink link name = .ok root) (hwalk : s.fetch none maxDepth root = (.ok r, s')) :
    r.ListsLocked r.lockedNames ∧
    run peer fillers fs config (.fetch link name none maxDepth) =
      (.ok { code := if r.lockedNames = [] then 0 else 2, printed := report root r none },
        s'.save opened) ∧
    ∀ path : String,
      (r.lockedNames = [] → r.Acyclic → ∃ content, r.assemble root.target = .ok content ∧
        (∀ after, (s'.save opened).writeAt path content = .ok after →
          run peer fillers fs config (.fetch link name (some path) maxDepth) =
            (.ok { code := 0, printed := report root r (some content.length) }, after)) ∧
        ∀ e, (s'.save opened).writeAt path content = .error e →
          run peer fillers fs config (.fetch link name (some path) maxDepth) =
            (.error (.unwritable path e), s'.save opened)) ∧
      (¬ (r.lockedNames = [] ∧ r.Acyclic) → ∃ cause,
        run peer fillers fs config (.fetch link name (some path) maxDepth) =
          (.error (.failed (.invalidArgument cause)), s'.save opened)) := by
  have hwhole := Walker.whole_root_iff hwalk
  simp only [run_fetch_eq hopen hroot hwalk]
  refine ⟨Walker.listsLocked_of_fetch hwalk, reportFetch_none, fun path =>
    ⟨fun hlocked hacyclic => ?_, fun hnot => ?_⟩⟩
  · obtain ⟨content, hcontent⟩ :=
      WalkResult.exists_assemble_iff.mpr (hwhole.mpr ⟨hlocked, hacyclic⟩)
    refine ⟨content, hcontent, fun after hafter => ?_, fun e he => ?_⟩
    · rw [reportFetch_of_assemble hcontent, hafter, fetchCode_eq, if_pos hlocked]
    · rw [reportFetch_of_assemble hcontent, he]
  · obtain ⟨cause, hcause⟩ := WalkResult.invalidArgument_of_not_whole (mt hwhole.mp hnot)
    exact ⟨cause, reportFetch_of_error hcause⟩

/-! ## A directory with a closed node -/

def linkTo (name : String) : Link := ⟨name, none⟩

def leafFrame : Bytes := Block.head 5 [] 1 ++ ([7] ++ List.replicate 15 0)

def leaf : Block := ⟨[], [7], leafFrame, Fingerprint.of .standard leafFrame⟩

def parentFrame : Bytes := Block.head 6 [linkTo "x"] 0 ++ List.replicate 31 0

def parent : Block := ⟨[linkTo "x"], [], parentFrame, Fingerprint.of .standard parentFrame⟩

/-- A block with a link to bytes that nothing opens, and a leaf. -/
def vault : FileSystem where
  entries := [([.text "blocks"], .folder), ([.text "blocks", .text "r"], .file parentFrame),
    ([.text "blocks", .text "x"], .file [1]), ([.text "blocks", .text "y"], .file leafFrame)]

def vaultConfig : Config := { store := { directory := some "blocks" } }

def vaultStore : Store Backing :=
  .overDisk ⟨"blocks", 1048576, vault.folder [.text "blocks"]⟩ [] {}

theorem openStore_vault :
    openStore .unreachable vault vaultConfig = .ok (vaultStore, vault) :=
  rfl

theorem save_vault : vaultStore.save vault = vault := rfl

theorem read_closed : (Store.walker none none).read (linkTo "x") vaultStore =
    (.ok (.locked ⟨[1], false⟩), vaultStore) :=
  rfl

theorem read_leaf : (Store.walker none none).read (linkTo "y") vaultStore =
    (.ok (.block leaf), vaultStore) := by
  refine Walker.read_of_openBytes? (v := ⟨leafFrame, false⟩) rfl (by decide)
    (Link.openBytes?_of_parse ?_)
  exact Block.parse_eq_ok_iff.mpr ⟨5, List.replicate 15 0, by decide, by decide, by decide,
    by decide, by simp [leaf], rfl, rfl, rfl⟩

theorem read_parent : (Store.walker none none).read (linkTo "r") vaultStore =
    (.ok (.block parent), vaultStore) := by
  have hvalid : (linkTo "x").Valid ∧ (linkTo "x").Canonical :=
    ⟨⟨by decide, by decide, by simp [linkTo], by decide⟩, by simp [Link.Canonical, linkTo]⟩
  refine Walker.read_of_openBytes? (v := ⟨parentFrame, false⟩) rfl (by decide)
    (Link.openBytes?_of_parse ?_)
  exact Block.parse_eq_ok_iff.mpr ⟨6, List.replicate 31 0, by decide, by decide, by decide,
    by decide, List.forall_mem_singleton.mpr hvalid, rfl, rfl, rfl⟩

/-- Without a file to write the closed node shows in the code and in the report. The leaf alone is
fetched into a file. -/
theorem fetch_ends_vault :
    let fetch (name : String) (out : Option String) : Run :=
      run .unreachable ([] : Bytes) vault vaultConfig (.fetch none (some name) out none)
    let r : WalkResult := ⟨[("r", .block parent), ("x", .locked ⟨[1], false⟩)]⟩
    let k : WalkResult := ⟨[("y", .block leaf)]⟩
    r.ListsLocked ["x"] ∧
      fetch "r" none = (.ok { code := 2, printed := report (linkTo "r") r none }, vault) ∧
      ∃ after, fetch "y" (some "o") =
          (.ok { code := 0, printed := report (linkTo "y") k (some 1) }, after) ∧
        after.readAt "o" = .ok [7] := by
  intro fetch r k
  have hr : vaultStore.fetch none none (linkTo "r") = (.ok r, vaultStore) := by
    refine (Store.visit_iff_fetch vaultStore none _ _).mp (.enter (by decide) read_parent ?_)
    exact .cons (.enter (by decide) read_closed .nil) .nil
  have hk : vaultStore.fetch none none (linkTo "y") = (.ok k, vaultStore) :=
    (Store.visit_iff_fetch vaultStore none _ _).mp (.enter (by decide) read_leaf .nil)
  have hparent : rootLink none (some "r") = .ok (linkTo "r") := rfl
  have hleaf : rootLink none (some "y") = .ok (linkTo "y") := rfl
  obtain ⟨hlists, hreport, -⟩ := fetch_ends ([] : Bytes) openStore_vault hparent hr
  obtain ⟨-, -, hwrites⟩ := fetch_ends ([] : Bytes) openStore_vault hleaf hk
  have hacyclic : k.Acyclic := by
    intro name hcycle
    obtain ⟨next, ⟨block, hblock, l, hl, -⟩, -⟩ := Relation.TransGen.head'_iff.mp hcycle
    have hmem := WalkResult.mem_entries_of_find? (WalkResult.block?_eq_some_iff.mp hblock)
    obtain ⟨-, rfl⟩ : name = "y" ∧ block = leaf := by simpa [k] using hmem
    cases hl
  obtain ⟨content, hcontent, hwrite, -⟩ := (hwrites "o").1 rfl hacyclic
  obtain rfl : content = [7] := by
    obtain ⟨block, parts, hblock, hparts, rfl⟩ := WalkResult.parts_of_assemble hcontent
    obtain rfl : leaf = block := Option.some.inj hblock
    cases hparts
    rfl
  have hwritable : (vault.writeAt "o" [7]).isOk := by decide +kernel
  obtain ⟨after, hafter⟩ := Result.exists_of_isOk hwritable
  rw [save_vault] at hreport hwrite
  exact ⟨hlists, hreport, after, hwrite after hafter, FileSystem.readAt_of_writeAt hafter⟩

/-- With a file to write, a walk with a closed node ends with 1 and without a report. -/
theorem closed_node_is_not_reported :
    let run :=
      run .unreachable ([] : Bytes) vault vaultConfig (.fetch none (some "x") (some "o") none)
    let r : WalkResult := ⟨[("x", .locked ⟨[1], false⟩)]⟩
    vaultStore.fetch none none (linkTo "x") = (.ok r, vaultStore) ∧ r.lockedNames = ["x"] ∧
      run = (.error (.failed (.invalidArgument (.notDecrypted "x"))), vault) ∧
      (Session.ofRun run.1).code = 1 ∧ (Session.ofRun run.1).printed = [] := by
  intro run r
  have hwalk : vaultStore.fetch none none (linkTo "x") = (.ok r, vaultStore) :=
    (Store.visit_iff_fetch vaultStore none _ _).mp (.enter (by decide) read_closed .nil)
  have hrun : run = (.error (.failed (.invalidArgument (.notDecrypted "x"))), vault) := by
    refine (run_fetch_eq openStore_vault rfl hwalk).trans ?_
    exact reportFetch_of_error (WalkResult.contentBelow_of_locked rfl)
  rw [hrun]
  exact ⟨hwalk, rfl, rfl, rfl, rfl⟩

end Command

end ContentAddressed
