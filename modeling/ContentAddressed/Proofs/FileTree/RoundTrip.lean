import ContentAddressed.Proofs.FileTree.Levels
import ContentAddressed.Proofs.Store.Fetch
import ContentAddressed.Proofs.Walk.Assemble

/-!
# Files come back from a store

A walk over the blocks of a file opens each of them and follows all links, so the contents below the
root are the data. Other blocks in the store do not matter.
-/

namespace ContentAddressed

namespace Store

variable {μ : Type} [Medium μ]

def afterReads (s : Store μ) (names : List String) : Store μ :=
  names.foldl (fun s name => (s.retrieve name).2) s

/-- A store that gives every name written its bytes, whichever of them were read before. -/
def Serves (s : Store μ) (writes : List (String × Bytes)) : Prop :=
  ∀ names ⊆ writes.map Prod.fst, ∀ e ∈ writes,
    ∃ v s', (s.afterReads names).retrieve e.1 = (.ok v, s') ∧ v.bytes = e.2

theorem Serves.retrieve {s : Store μ} {writes : List (String × Bytes)} (h : s.Serves writes)
    {e : String × Bytes} (he : e ∈ writes) :
    ∃ v s', s.retrieve e.1 = (.ok v, s') ∧ v.bytes = e.2 ∧ s'.Serves writes := by
  obtain ⟨v, s', hget, hv⟩ := h [] (List.nil_subset _) e he
  refine ⟨v, s', hget, hv, fun names hnames e' he' => ?_⟩
  have hnext := h (e.1 :: names) (List.cons_subset.mpr ⟨List.mem_map_of_mem he, hnames⟩) e' he'
  have hstate : (s.retrieve e.1).2 = s' := congrArg Prod.snd hget
  rwa [afterReads, List.foldl_cons, hstate] at hnext

section Memory

variable (m : Memory) (name : String)

theorem retrieve_plain_memory : (plain m).retrieve name = ((m.get name).1, plain m) := by
  change ((m.get name).1, base (m.get name).2 []) = _
  rw [m.get_eq name]
  rfl

theorem afterReads_plain_memory (names : List String) : (plain m).afterReads names = plain m := by
  induction names with
  | nil => rfl
  | cons name names ih =>
    rw [afterReads, List.foldl_cons, retrieve_plain_memory]
    exact ih

end Memory

theorem serves_plain_memory {writes : List (String × Bytes)}
    (h : ∀ e ∈ writes, ∀ e' ∈ writes, e.1 = e'.1 → e.2 = e'.2) :
    (plain (⟨writes⟩ : Memory)).Serves writes := by
  intro names _ e he
  rw [afterReads_plain_memory, retrieve_plain_memory]
  obtain ⟨bs, hbs⟩ : ∃ bs, writes.lookup e.1 = some bs :=
    Option.isSome_iff_exists.mp (List.lookup_isSome_iff.mpr ⟨e, he, by simp⟩)
  refine ⟨⟨bs, false⟩, plain ⟨writes⟩, ?_, (h e he (e.1, bs) (mem_of_lookup hbs) rfl).symm⟩
  simp only [Memory.get, NameTable.find?, hbs]

end Store

namespace FileTree

/-- A result in which every name is that of a node, with the links and the content of its block. -/
def Reflects (pool : List FileNode) (r : WalkResult) : Prop :=
  ∀ e ∈ r.entries, ∃ n ∈ pool, n.name = e.1 ∧ ∃ b, e.2 = .block b ∧ b.links = n.block.links ∧
    b.content = n.block.content

theorem Reflects.lockedEntries {pool : List FileNode} {r : WalkResult} (h : Reflects pool r) :
    r.lockedEntries = [] := by
  rw [WalkResult.lockedEntries, List.filterMap_eq_nil_iff]
  intro e he
  obtain ⟨-, -, -, b, hb, -⟩ := h e he
  rw [hb]
  rfl

variable {t : FileTree} {μ : Type} [Medium μ]

theorem exists_read {n : FileNode} (hn : n ∈ t.nodes) (hsound : n.Sound)
    (hclosed : ∀ e ∈ t.encrypted, ∀ a b, Block.parse a e.ciphertext ≠ .ok b) {s : Store μ}
    (hs : s.Serves t.writes) :
    ∃ b s', (Store.walker none none).read n.link s = (.ok (.block b), s') ∧
      b.links = n.block.links ∧ b.content = n.block.content ∧ s'.Serves t.writes := by
  obtain ⟨v, s', hget, hv, hs'⟩ := hs.retrieve (mem_writes hn)
  rw [← hsound.target_link] at hget
  obtain ⟨b, hopen, hlinks, hcontent⟩ := hsound.exists_openBytes? none fun e he =>
    hclosed e (List.mem_filterMap.mpr ⟨n, hn, he⟩)
  refine ⟨b, s', Walker.read_of_openBytes? hget ?_ ?_, hlinks, hcontent, hs'⟩
  · exact hv ▸ hsound.admits
  · exact hv ▸ hopen

/-- What visiting some links comes to: an outcome that still reflects the file. -/
def Keeps (t : FileTree) (visits : Outcome (Store μ) WalkResult → Prop) : Prop :=
  ∃ r s, visits (.ok r, s) ∧ Reflects t.nodes r ∧ s.Serves t.writes

theorem keeps_visitEach {ls : List Link}
    (hls : ∀ l ∈ ls, ∀ r (s : Store μ), Reflects t.nodes r → s.Serves t.writes →
      t.Keeps ((Store.walker none none).Visit l r s))
    {r : WalkResult} {s : Store μ} (hr : Reflects t.nodes r) (hs : s.Serves t.writes) :
    t.Keeps ((Store.walker none none).VisitEach ls r s) := by
  induction ls generalizing r s with
  | nil => exact ⟨r, s, Walker.VisitEach.nil, hr, hs⟩
  | cons l ls ih =>
    rw [List.forall_mem_cons] at hls
    obtain ⟨r₁, s₁, hl, hr₁, hs₁⟩ := hls.1 r s hr hs
    obtain ⟨r₂, s₂, hvisits, hr₂, hs₂⟩ := ih hls.2 hr₁ hs₁
    exact ⟨r₂, s₂, Walker.VisitEach.cons hl hvisits, hr₂, hs₂⟩

theorem Reflects.record {r : WalkResult} (h : Reflects t.nodes r) {n : FileNode} (hn : n ∈ t.nodes)
    (hsound : n.Sound) {b : Block} (hlinks : b.links = n.block.links)
    (hcontent : b.content = n.block.content) :
    Reflects t.nodes (r.record n.link.target (.block b)) := by
  intro e he
  rcases List.mem_append.mp he with he | he
  · exact h e he
  · obtain rfl := List.mem_singleton.mp he
    exact ⟨n, hn, hsound.target_link.symm, b, rfl, hlinks, hcontent⟩

theorem keeps_visit_node (hsound : ∀ n ∈ t.nodes, n.Sound)
    (hclosed : ∀ e ∈ t.encrypted, ∀ a b, Block.parse a e.ciphertext ≠ .ok b) {n : FileNode}
    (hn : n ∈ t.nodes)
    (hbelow : ∀ l ∈ n.block.links, ∀ r (s : Store μ), Reflects t.nodes r → s.Serves t.writes →
      t.Keeps ((Store.walker none none).Visit l r s))
    {r : WalkResult} {s : Store μ} (hr : Reflects t.nodes r) (hs : s.Serves t.writes) :
    t.Keeps ((Store.walker none none).Visit n.link r s) := by
  by_cases hknown : r.contains n.link.target
  · exact ⟨r, s, Walker.Visit.known hknown, hr, hs⟩
  · obtain ⟨b, s₁, hread, hlinks, hcontent, hs₁⟩ := exists_read hn (hsound n hn) hclosed hs
    have hr₁ := hr.record hn (hsound n hn) hlinks hcontent
    rw [← hlinks] at hbelow
    obtain ⟨r₂, s₂, hvisits, hr₂, hs₂⟩ := keeps_visitEach hbelow hr₁ hs₁
    exact ⟨r₂, s₂, Walker.Visit.enter hknown hread hvisits, hr₂, hs₂⟩

/-- Visiting a link that spells something ends well, by induction on the height. -/
theorem keeps_visit (hsound : ∀ n ∈ t.nodes, n.Sound)
    (hclosed : ∀ e ∈ t.encrypted, ∀ a b, Block.parse a e.ciphertext ≠ .ok b) {h : Nat} {l : Link}
    {data : Bytes} (hl : Spells t.nodes h l data) {r : WalkResult} {s : Store μ}
    (hr : Reflects t.nodes r) (hs : s.Serves t.writes) :
    t.Keeps ((Store.walker none none).Visit l r s) := by
  induction h generalizing l data r s with
  | zero =>
    obtain ⟨n, hn, rfl, hnil, -⟩ := hl
    exact keeps_visit_node hsound hclosed hn (by simp [hnil]) hr hs
  | succ h ih =>
    obtain ⟨n, hn, rfl, -, -, parts, hparts, -⟩ := hl
    refine keeps_visit_node hsound hclosed hn (fun l hmem r s hr hs => ?_) hr hs
    obtain ⟨part, hpart⟩ := Result.exists_of_mem hparts hmem
    exact ih hpart hr hs

section Assembly

variable {pool : List FileNode} {r : WalkResult} {root : Link}

/-- A node that was met is in the result, and so are the links of its block. -/
theorem Reflects.exists_block (hr : Reflects pool r) (hapart : NamesApart pool)
    (hsound : ∀ n ∈ pool, n.Sound) (hfollowed : ∀ l, r.Meets root l → r.contains l.target)
    {n : FileNode} (hn : n ∈ pool) (hmet : r.Meets root n.link) :
    ∃ b, r.find? n.link.target = some (.block b) ∧ b.links = n.block.links ∧
      b.content = n.block.content ∧ ∀ k ∈ n.block.links, r.Meets root k := by
  obtain ⟨f, hf⟩ := Option.isSome_iff_exists.mp (hfollowed n.link hmet)
  have hmem := WalkResult.mem_entries_of_find? hf
  obtain ⟨m, hm, hname, b, rfl, hlinks, hcontent⟩ := hr _ hmem
  have htarget : m.link.target = n.link.target := ((hsound m hm).target_link).trans hname
  obtain ⟨hl, hc⟩ := hapart.eq_of_target_eq hsound hm hn htarget
  refine ⟨b, hf, hlinks.trans hl, hcontent.trans hc, fun k hk => Or.inr ⟨_, hmem, ?_⟩⟩
  change k ∈ b.links
  rwa [hlinks, hl]

/-- Names of links that lead higher than `h`. -/
def Above (pool : List FileNode) (h : Nat) (path : List String) : Prop :=
  ∀ name ∈ path, ∃ h' l data, h < h' ∧ l.target = name ∧ Spells pool h' l data

theorem Above.not_mem {h : Nat} {path : List String} (hpath : Above pool h path)
    (hapart : NamesApart pool) (hsound : ∀ n ∈ pool, n.Sound) {l : Link} {data : Bytes}
    (hl : Spells pool h l data) : l.target ∉ path := by
  intro hmem
  obtain ⟨h', l', data', hlt, htarget, hl'⟩ := hpath l.target hmem
  exact absurd (hl.unique hapart hsound hl' htarget.symm).1 (Nat.ne_of_lt hlt)

theorem Above.cons {h : Nat} {path : List String} (hpath : Above pool (h + 1) path) {l : Link}
    {data : Bytes} (hl : Spells pool (h + 1) l data) : Above pool h (l.target :: path) := by
  intro name hname
  rcases List.mem_cons.mp hname with rfl | hname
  · exact ⟨h + 1, l, data, Nat.lt_succ_self h, rfl, hl⟩
  · obtain ⟨h', l', data', hlt, hl'⟩ := hpath name hname
    exact ⟨h', l', data', Nat.lt_of_succ_lt hlt, hl'⟩

/-- What is below a name is what its link spells. The names on the path are those of higher nodes,
so none of them comes back. -/
theorem contentBelow_of_spells (hr : Reflects pool r) (hapart : NamesApart pool)
    (hsound : ∀ n ∈ pool, n.Sound) (hfollowed : ∀ l, r.Meets root l → r.contains l.target)
    {h : Nat} {l : Link} {data : Bytes} (hl : Spells pool h l data) (hmet : r.Meets root l)
    {path : List String} (hpath : Above pool h path) :
    r.contentBelow path l.target = .ok data := by
  induction h generalizing l data path with
  | zero =>
    have hnew := hpath.not_mem hapart hsound hl
    obtain ⟨n, hn, rfl, hnil, rfl⟩ := hl
    obtain ⟨b, hb, hlinks, hcontent, -⟩ := hr.exists_block hapart hsound hfollowed hn hmet
    have hbelow : List.Forall₂ (fun k part =>
        r.contentBelow (n.link.target :: path) k.target = .ok part) b.links [] := by
      rw [hlinks, hnil]
      exact List.Forall₂.nil
    rw [WalkResult.contentBelow_eq_ok hb hnew hbelow, hcontent, List.flatten_nil, List.append_nil]
  | succ h ih =>
    have hnew := hpath.not_mem hapart hsound hl
    have hlower := hpath.cons hl
    obtain ⟨n, hn, rfl, hnil, -, parts, hparts, rfl⟩ := hl
    obtain ⟨b, hb, hlinks, hcontent, hmets⟩ := hr.exists_block hapart hsound hfollowed hn hmet
    have hbelow : List.Forall₂ (fun k part =>
        r.contentBelow (n.link.target :: path) k.target = .ok part) b.links parts := by
      rw [hlinks]
      exact ((List.forall₂_and_left _ _).mpr ⟨hmets, hparts⟩).imp
        fun k part hk => ih hk.2 hk.1 hlower
    rw [WalkResult.contentBelow_eq_ok hb hnew hbelow, hcontent, hnil, List.nil_append]

end Assembly

/-- What a link spells comes back, whether it is the root of a file or a link below it. -/
theorem exists_fetch_of_spells [FiniteMedium μ] (hsound : ∀ n ∈ t.nodes, n.Sound)
    (hapart : NamesApart t.nodes)
    (hclosed : ∀ e ∈ t.encrypted, ∀ a b, Block.parse a e.ciphertext ≠ .ok b) {height : Nat}
    {root : Link} {data : Bytes} (hroot : Spells t.nodes height root data) {s : Store μ}
    (hs : s.Serves t.writes) :
    ∃ r s', s.fetch none none root = (.ok r, s') ∧ r.lockedEntries = [] ∧
      r.assemble root.target = .ok data := by
  have hstart : Reflects t.nodes {} := fun _ h => by cases h
  obtain ⟨r, s', hvisit, hr, -⟩ := keeps_visit hsound hclosed hroot hstart hs
  have hfetch := (Store.visit_iff_fetch s none root _).mp hvisit
  have hfollowed := (Store.explored_of_fetch hfetch).2
  refine ⟨r, s', hfetch, hr.lockedEntries, ?_⟩
  exact contentBelow_of_spells hr hapart hsound hfollowed hroot (Or.inl rfl)
    fun _ h => by cases h

/-- A built file comes back: a walk from its root over any store that serves its blocks ends without
closed bytes, and what it found is assembled to the data. -/
theorem fetch_assemble_build [FiniteMedium μ] (l : Layout) (fillers : Fillers) (data : Bytes)
    (t : FileTree) (hbuild : l.build fillers data = .ok t) (hapart : NamesApart t.nodes)
    (hclosed : ∀ e ∈ t.encrypted, ∀ a b, Block.parse a e.ciphertext ≠ .ok b)
    (s : Store μ) (hs : s.Serves t.writes) :
    ∃ r s', s.fetch none none t.root = (.ok r, s') ∧ r.lockedEntries = [] ∧
      r.assemble t.root.target = .ok data := by
  obtain ⟨hsound, height, hroot⟩ := Layout.exists_spells_of_build hbuild
  exact exists_fetch_of_spells hsound hapart hclosed hroot hs

/-! ## A file of several blocks -/

namespace Forked

def layout : Layout := { blockSize := 32 }

def data : Bytes := List.replicate 20 7

/-- A block with the name of its frame. -/
structure Named where
  block : Block
  named : Fingerprint.of .sha256 block.frame = block.fingerprint

def Named.node (b : Named) : FileNode := ⟨b.block, none⟩

/-- The first leaf is full. -/
def left : Named where
  block := {
    links := []
    content := List.replicate 16 7
    frame := Block.head 5 [] 16 ++ List.replicate 16 7
    fingerprint := ⟨.sha256, [0x2F, 0xD1, 0x5F, 0x0A, 0xF8, 0x65, 0x55, 0xB0,
      0xA6, 0x6B, 0x1A, 0xE0, 0xC3, 0x4A, 0x18, 0x71,
      0x77, 0x46, 0x6D, 0x71, 0x68, 0x96, 0x53, 0x32,
      0xD5, 0xA4, 0x9E, 0x9D, 0xAC, 0xA4, 0xD4, 0x45], rfl⟩ }
  named := by decide +kernel

/-- The second leaf ends with padding. -/
def right : Named where
  block := {
    links := []
    content := List.replicate 4 7
    frame := Block.head 5 [] 4 ++ (List.replicate 4 7 ++ List.replicate 12 1)
    fingerprint := ⟨.sha256, [0xD1, 0x66, 0xA8, 0x9A, 0xCC, 0x2F, 0xEF, 0xF3,
      0xC6, 0xB0, 0x39, 0x72, 0x84, 0x8C, 0xB7, 0x30,
      0x26, 0xC2, 0xDF, 0x9E, 0xD3, 0x2A, 0xFF, 0x76,
      0x22, 0x1D, 0xAD, 0x96, 0x78, 0x36, 0xB0, 0x72], rfl⟩ }
  named := by decide +kernel

/-- The block above them has other padding. -/
def top : Named where
  block := {
    links := [left.block.link, right.block.link]
    content := []
    frame := Block.head 8 [left.block.link, right.block.link] 0 ++ List.replicate 104 2
    fingerprint := ⟨.sha256, [0x59, 0xD0, 0xED, 0xBC, 0xD5, 0x97, 0x0C, 0x2B,
      0x46, 0x39, 0x61, 0x32, 0x71, 0xB7, 0xC6, 0x3C,
      0xB7, 0x6F, 0x12, 0xAA, 0xE9, 0xC2, 0x81, 0x90,
      0xA7, 0x19, 0xFC, 0x7B, 0x58, 0xA3, 0xAF, 0xCF], rfl⟩ }
  named := by decide +kernel

def tree : FileTree := ⟨top.block.link, [left.node, right.node, top.node]⟩

theorem node_left : layout.node [0] { content := List.replicate 16 7 } = .ok left.node :=
  Layout.node_of_frame 32 rfl (by decide +kernel) rfl rfl (by decide +kernel) left.named

theorem node_right : layout.node [1] { content := List.replicate 4 7 } = .ok right.node :=
  Layout.node_of_frame 32 rfl (by decide +kernel) rfl rfl (by decide +kernel) right.named

theorem node_top :
    layout.node [2] { links := [left.block.link, right.block.link] } = .ok top.node :=
  Layout.node_of_frame 256 rfl (by decide +kernel) rfl rfl (by decide +kernel) top.named

theorem build_eq : layout.build .counting data = .ok tree := by
  have hleaves : layout.nodes .counting 0 (layout.leafDrafts data) =
      .ok [left.node, right.node] :=
    Layout.nodes_cons_eq_ok_iff.mpr ⟨_, _, node_left,
      Layout.nodes_cons_eq_ok_iff.mpr ⟨_, _, node_right, rfl, rfl⟩, rfl⟩
  have hgroup : layout.group [left.block.link, right.block.link] =
      [[left.block.link, right.block.link]] := by
    decide +kernel
  have habove : layout.nodes .counting 2
      (layout.indexDrafts [left.block.link, right.block.link]) = .ok [top.node] := by
    rw [Layout.indexDrafts, hgroup]
    exact Layout.nodes_cons_eq_ok_iff.mpr ⟨_, _, node_top, rfl, rfl⟩
  rw [Layout.build, if_pos (by decide)]
  refine Result.bind_eq_ok_iff.mpr ⟨_, hleaves, ?_⟩
  exact Result.bind_eq_ok_iff.mpr ⟨_, habove, rfl⟩

theorem namesApart : NamesApart tree.nodes := by
  rw [NamesApart]
  decide +kernel

theorem serves : (Store.plain (⟨tree.writes⟩ : Memory)).Serves tree.writes :=
  Store.serves_plain_memory (by decide +kernel)

end Forked

/-- An encrypted leaf whose ciphertext has 48 bytes, which no frame has. -/
theorem exists_build_sealed :
    let l : Layout :=
      { crypto := { cipher := Transformation.chaining.name }, blockSize := 32, encrypt := true }
    ∃ b e, l.build ([] : Bytes) [1, 2, 3] = .ok ⟨e.link, [⟨b, some e⟩]⟩ ∧
      ∀ a p, Block.parse a e.ciphertext ≠ .ok p := by
  intro l
  let d : Block.Draft := { ({ content := [1, 2, 3] } : Block.Draft) with digest := l.crypto.digest }
  have hsize : d.frameSize = .ok 32 := by decide
  obtain ⟨b, hb⟩ : ∃ b, d.build [] = .ok b := ⟨_, Result.bind_eq_ok_iff.mpr ⟨32, hsize, rfl⟩⟩
  have ht : l.crypto.transformation = .ok .chaining :=
    Result.bind_eq_ok_iff.mpr ⟨(), rfl, by rw [Transformation.parse_name]; rfl⟩
  have hlong : l.crypto.keyBytes ≤ b.fingerprint.digest.length := by
    have hkey : l.crypto.keyBytes = 16 := by decide
    have hdigest : (Fingerprint.of d.digest b.frame).algorithm.size = 32 := rfl
    rw [b.fingerprint.length_digest, (Block.Draft.frame_of_build hb).2.2.1, hkey, hdigest]
    omega
  obtain ⟨e, he⟩ := Block.exists_encrypt ht hlong
  let fillers : Fillers := ([] : Bytes)
  have hnode : l.node (fillers.get 0) { content := [1, 2, 3] } = .ok ⟨b, some e⟩ := by
    rw [Layout.node]
    refine Result.bind_eq_ok_iff.mpr ⟨b, hb, ?_⟩
    rw [if_pos rfl]
    exact Result.bind_eq_ok_iff.mpr ⟨e, he, rfl⟩
  have hbuild : l.build fillers [1, 2, 3] = .ok ⟨e.link, [⟨b, some e⟩]⟩ :=
    Layout.build_of_leaf (by decide) (by decide) hnode
  have hlen : e.ciphertext.length = 48 := by
    obtain ⟨t, key, ciphertext, ht', -, hc, rfl, -⟩ := Block.exists_of_encrypt he
    obtain rfl : Transformation.chaining = t := Except.ok.inj (ht.symm.trans ht')
    rw [Transformation.length_of_encrypt_chaining hc, Block.Draft.length_frame_of_build hsize hb]
  refine ⟨b, e, hbuild, fun a p hp => ?_⟩
  obtain ⟨exponent, -, -, -, hsize, -⟩ := Block.parse_eq_ok_iff.mp hp
  have hpow : 2 ^ exponent = 48 := hsize ▸ hlen
  rcases Nat.lt_or_ge exponent 6 with hlow | hhigh
  · have := Nat.pow_le_pow_right (n := 2) (by omega) (Nat.le_of_lt_succ hlow)
    omega
  · have := Nat.pow_le_pow_right (n := 2) (by omega) hhigh
    omega

/-- Two leaves below an index block, each block with padding of its own, and an encrypted leaf. -/
theorem fetch_assemble_build_forked :
    (Forked.layout.build .counting Forked.data = .ok Forked.tree ∧
      NamesApart Forked.tree.nodes ∧ Forked.tree.encrypted = [] ∧
      (Store.plain (⟨Forked.tree.writes⟩ : Memory)).Serves Forked.tree.writes ∧
      ∃ r s', (Store.plain (⟨Forked.tree.writes⟩ : Memory)).fetch none none Forked.tree.root =
          (.ok r, s') ∧
        r.lockedEntries = [] ∧ r.assemble Forked.tree.root.target = .ok Forked.data) ∧
    let l : Layout :=
      { crypto := { cipher := Transformation.chaining.name }, blockSize := 32, encrypt := true }
    ∃ t, l.build ([] : Bytes) [1, 2, 3] = .ok t ∧ NamesApart t.nodes ∧
      (∀ e ∈ t.encrypted, ∀ a b, Block.parse a e.ciphertext ≠ .ok b) ∧
      (Store.plain (⟨t.writes⟩ : Memory)).Serves t.writes ∧
      ∃ r s', (Store.plain (⟨t.writes⟩ : Memory)).fetch none none t.root = (.ok r, s') ∧
        r.lockedEntries = [] ∧ r.assemble t.root.target = .ok [1, 2, 3] := by
  refine ⟨⟨Forked.build_eq, Forked.namesApart, rfl, Forked.serves, ?_⟩, ?_⟩
  · exact fetch_assemble_build Forked.layout .counting Forked.data _ Forked.build_eq
      Forked.namesApart (fun _ he => by cases he) _ Forked.serves
  · intro l
    obtain ⟨b, e, hbuild, hclosed⟩ := exists_build_sealed
    have hsealed : ∀ e' ∈ [e], ∀ a b, Block.parse a e'.ciphertext ≠ .ok b :=
      List.forall_mem_singleton.mpr hclosed
    have hserves : (Store.plain (⟨[(e.name.encode, e.ciphertext)]⟩ : Memory)).Serves _ :=
      Store.serves_plain_memory (by simp)
    have hapart : NamesApart [⟨b, some e⟩] := by
      simp [NamesApart]
    exact ⟨_, hbuild, hapart, hsealed, hserves,
      fetch_assemble_build l ([] : Bytes) [1, 2, 3] _ hbuild hapart hsealed _ hserves⟩

end FileTree

end ContentAddressed
