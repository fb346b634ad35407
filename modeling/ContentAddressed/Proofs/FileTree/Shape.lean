import ContentAddressed.Proofs.Block.Convergent
import ContentAddressed.Proofs.FileTree.Levels
import Mathlib.Algebra.Order.Floor.Div

/-!
# The shape of a file tree

A file is refused only for its block size or its settings for encryption. Otherwise its blocks are
leaves that hold the data piece by piece, and above them levels of index blocks, each linking to all
of the level below and shorter than it, up to one root.
-/

namespace ContentAddressed

namespace FileTree

namespace Layout

variable {l : Layout} {filler : Bytes} {fillers : Fillers} {draft : Block.Draft} {n : FileNode}
  {data : Bytes}

/-! ## One block -/

/-- Settings with which every block can be stored: as it is, or encrypted with a key of a size that
AES has, which the digest is long enough for. -/
def Stores (l : Layout) : Prop :=
  l.encrypt →
    (l.crypto.keyBits = 128 ∨ l.crypto.keyBits = 192 ∨ l.crypto.keyBits = 256) ∧
    (∃ t, Transformation.parse l.crypto.cipher = .ok t) ∧
    l.crypto.keyBits / 8 ≤ l.crypto.digest.size

def Encloses (l : Layout) (n : FileNode) : Prop :=
  if l.encrypt then ∃ e, n.block.encrypt l.crypto = .ok e ∧ n.enclosed = some e
  else n.enclosed = none

theorem node_eq_ok_iff : l.node filler draft = .ok n ↔
    Block.Draft.build { draft with digest := l.crypto.digest } filler = .ok n.block ∧
      l.Encloses n := by
  obtain ⟨block, enclosed⟩ := n
  rw [node, Result.bind_eq_ok_iff, Encloses]
  by_cases hencrypt : l.encrypt
  · simp only [hencrypt, if_true, Result.bind_eq_ok_iff, Result.pure_eq_ok_iff, FileNode.mk.injEq]
    constructor
    · rintro ⟨_, hb, e, he, rfl, rfl⟩
      exact ⟨hb, e, he, rfl⟩
    · rintro ⟨hb, e, he, rfl⟩
      exact ⟨_, hb, e, he, rfl, rfl⟩
  · simp only [hencrypt, if_false, Bool.false_eq_true, Result.pure_eq_ok_iff, FileNode.mk.injEq]
    constructor
    · rintro ⟨_, hb, rfl, rfl⟩
      exact ⟨hb, rfl⟩
    · rintro ⟨hb, rfl⟩
      exact ⟨_, hb, rfl, rfl⟩

theorem Makes.encloses (h : l.Makes draft n) : l.Encloses n := by
  obtain ⟨filler, hn⟩ := h
  exact (node_eq_ok_iff.mp hn).2

/-- A block that can be built fails to be stored by the settings only. -/
theorem exists_node_iff : (∃ n, l.node filler draft = .ok n) ↔
    (∃ b, Block.Draft.build { draft with digest := l.crypto.digest } filler = .ok b) ∧
      l.Stores := by
  have hsize {b : Block}
      (hb : Block.Draft.build { draft with digest := l.crypto.digest } filler = .ok b) :
      b.fingerprint.digest.length = l.crypto.digest.size := by
    obtain ⟨-, -, hname, -⟩ := Block.Draft.frame_of_build hb
    rw [hname]
    exact Fingerprint.length_digest _
  constructor
  · rintro ⟨n, hn⟩
    obtain ⟨hb, henclosed⟩ := node_eq_ok_iff.mp hn
    refine ⟨⟨n.block, hb⟩, fun hencrypt => ?_⟩
    rw [Encloses, if_pos hencrypt] at henclosed
    obtain ⟨e, he, -⟩ := henclosed
    rw [← hsize hb]
    exact Block.exists_encrypt_iff.mp ⟨e, he⟩
  · rintro ⟨⟨b, hb⟩, hstores⟩
    by_cases hencrypt : l.encrypt
    · obtain ⟨e, he⟩ := Block.exists_encrypt_iff.mpr (hsize hb ▸ hstores hencrypt)
      refine ⟨⟨b, some e⟩, node_eq_ok_iff.mpr ⟨hb, ?_⟩⟩
      rw [Encloses, if_pos hencrypt]
      exact ⟨e, he, rfl⟩
    · refine ⟨⟨b, none⟩, node_eq_ok_iff.mpr ⟨hb, ?_⟩⟩
      rw [Encloses, if_neg hencrypt]

/-! ## Sizes -/

theorem accepts_iff : l.accepts ↔ ∃ k, 5 ≤ k ∧ k ≤ 31 ∧ l.blockSize = 2 ^ k := by
  have hpow (k m : Nat) : 2 ^ k ≤ 2 ^ m ↔ k ≤ m := Nat.pow_le_pow_iff_right (by omega)
  rw [accepts, Bool.and_eq_true, Bool.and_eq_true, decide_eq_true_eq, decide_eq_true_eq,
    Block.isPowerOfTwo_iff_exists, Block.headerLength, Block.maxExponent, Nat.one_shiftLeft]
  constructor
  · rintro ⟨⟨⟨k, hk⟩, hlow⟩, hhigh⟩
    rw [hk] at hlow hhigh
    exact ⟨k, (hpow 5 k).mp hlow, (hpow k 31).mp hhigh, hk⟩
  · rintro ⟨k, hlow, hhigh, hk⟩
    rw [hk]
    exact ⟨⟨⟨k, rfl⟩, (hpow 5 k).mpr hlow⟩, (hpow k 31).mpr hhigh⟩

theorem capacity_add (h : l.accepts) : l.capacity + 16 = l.blockSize ∧ l.blockSize ≤ 2 ^ 31 := by
  obtain ⟨k, hlow, hhigh, hk⟩ := accepts_iff.mp h
  have hmin : 2 ^ 5 ≤ 2 ^ k := Nat.pow_le_pow_right (by omega) hlow
  have hmax : 2 ^ k ≤ 2 ^ 31 := Nat.pow_le_pow_right (by omega) hhigh
  rw [capacity, Block.headerLength]
  omega

theorem length_frame_le (h : l.accepts) {b : Block} (hb : draft.build filler = .ok b)
    (hsize : draft.desiredSize = none) (hfits : draft.minimumSize ≤ l.blockSize) :
    b.frame.length ≤ l.blockSize := by
  obtain ⟨k, -, -, hk⟩ := accepts_iff.mp h
  have hleast := Block.Draft.length_frame_of_desiredSize hb
  rw [hsize] at hleast
  exact hleast.2 ⟨⟨k, hk⟩, hfits⟩

/-! ## Leaves -/

/-- The pieces of a file are cut at multiples of what a block holds. -/
theorem leafContents_eq (h : 0 < l.capacity) (data : Bytes) :
    l.leafContents data = (List.range (max 1 (data.length ⌈/⌉ l.capacity))).map fun i =>
      (data.drop (i * l.capacity)).take l.capacity := by
  rw [leafContents, Nat.ceilDiv_eq_add_pred_div, Nat.add_sub_assoc h]
  split
  · next hempty =>
    obtain rfl : data = [] := by simpa using hempty
    have hzero : (l.capacity - 1) / l.capacity = 0 := Nat.div_eq_of_lt (by omega)
    simp [hzero]
  · next hfull =>
    have hlength : 0 < data.length := by
      rw [List.length_pos_iff]
      simpa using hfull
    have hone : 1 ≤ (data.length + (l.capacity - 1)) / l.capacity :=
      (Nat.one_le_div_iff h).mpr (by omega)
    rw [Nat.max_eq_right hone, Bytes.chunks, Bytes.splitPieces_eq]
    rfl

/-- The leaves of a file. Every piece but the last one fills a block of the chosen size. -/
structure Leaves (l : Layout) (data : Bytes) (nodes : List FileNode) : Prop where
  length_eq : nodes.length = max 1 (data.length ⌈/⌉ (l.blockSize - 16))
  links_eq : ∀ n ∈ nodes, n.block.links = []
  content_eq : nodes.map (fun n => n.block.content) =
    (List.range nodes.length).map fun i =>
      (data.drop (i * (l.blockSize - 16))).take (l.blockSize - 16)
  length_frame : ∀ n ∈ nodes.dropLast, n.block.frame.length = l.blockSize

theorem length_le_of_mem_leafContents (h : 0 < l.capacity) {piece : Bytes}
    (hpiece : piece ∈ l.leafContents data) : piece.length ≤ l.capacity := by
  rw [leafContents_eq h] at hpiece
  obtain ⟨i, -, rfl⟩ := List.mem_map.mp hpiece
  exact List.length_take_le _ _

theorem length_eq_of_mem_dropLast_leafContents (h : 0 < l.capacity) {piece : Bytes}
    (hpiece : piece ∈ (l.leafContents data).dropLast) : piece.length = l.capacity := by
  obtain ⟨m, hm⟩ : ∃ m, max 1 (data.length ⌈/⌉ l.capacity) = m + 1 :=
    ⟨max 1 (data.length ⌈/⌉ l.capacity) - 1, by omega⟩
  rw [leafContents_eq h, hm, List.range_succ, List.map_append, List.map_singleton,
    List.dropLast_concat] at hpiece
  obtain ⟨i, hi, rfl⟩ := List.mem_map.mp hpiece
  rw [List.mem_range] at hi
  -- a piece that starts behind this one means that this one ends within the data
  have hmore : ¬ data.length ⌈/⌉ l.capacity ≤ i + 1 := by omega
  rw [ceilDiv_le_iff_le_mul h, Nat.mul_succ, Nat.mul_comm] at hmore
  rw [List.length_take, List.length_drop]
  omega

theorem exists_leaf (haccepts : l.accepts) (hstores : l.Stores) {piece : Bytes}
    (hpiece : piece.length ≤ l.capacity) :
    ∃ n, l.node filler { content := piece } = .ok n := by
  obtain ⟨hcapacity, hlimit⟩ := capacity_add haccepts
  refine exists_node_iff.mpr ⟨Block.Draft.exists_build_iff.mpr ⟨Nat.zero_le _, ?_⟩, hstores⟩
  change 16 + piece.length ≤ 2 ^ 31
  omega

theorem length_frame_leaf (haccepts : l.accepts) {piece : Bytes}
    (hpiece : piece.length = l.capacity)
    (hn : l.Makes { content := piece } n) : n.block.frame.length = l.blockSize := by
  obtain ⟨filler, hn⟩ := hn
  obtain ⟨hb, -⟩ := node_eq_ok_iff.mp hn
  obtain ⟨hcapacity, -⟩ := capacity_add haccepts
  have hmin : 16 + piece.length ≤ n.block.frame.length :=
    (Block.Draft.length_frame_of_desiredSize hb).1.2
  have hmax := length_frame_le haccepts hb rfl (show 16 + piece.length ≤ l.blockSize by omega)
  omega

theorem leaves_of_forall₂ (haccepts : l.accepts) {nodes : List FileNode}
    (h : List.Forall₂ (fun piece => l.Makes { content := piece }) (l.leafContents data) nodes) :
    l.Leaves data nodes := by
  have hcapacity := capacity_pos haccepts
  have hcontent : nodes.map (fun n => n.block.content) = l.leafContents data :=
    Result.map_eq_of_forall₂ (fun _ _ hn => (hn.sound (by simp)).2.2) h
  have hlength : nodes.length = max 1 (data.length ⌈/⌉ l.capacity) := by
    rw [← h.length_eq, leafContents_eq hcapacity, List.length_map, List.length_range]
  refine ⟨hlength, fun n hn => ?_, ?_, fun n hn => ?_⟩
  · obtain ⟨piece, -, hpiece⟩ := Result.exists_mem_of_mem h hn
    exact (hpiece.sound (by simp)).2.1
  · rw [hcontent, leafContents_eq hcapacity, hlength]
    rfl
  · have hpiece : n.block.content ∈ (l.leafContents data).dropLast := by
      rw [← hcontent, ← List.map_dropLast]
      exact List.mem_map_of_mem hn
    obtain ⟨piece, -, hmade⟩ := Result.exists_mem_of_mem h (List.mem_of_mem_dropLast hn)
    obtain ⟨-, -, rfl⟩ := hmade.sound (by simp)
    exact length_frame_leaf haccepts (length_eq_of_mem_dropLast_leafContents hcapacity hpiece) hmade

/-! ## Index blocks -/

/-- An index block. It is larger than the chosen size only for one or two long links. -/
structure IndexBlock (l : Layout) (n : FileNode) : Prop where
  content_eq : n.block.content = []
  one_le : 1 ≤ n.block.links.length
  length_le : n.block.links.length ≤ 255
  length_frame : n.block.frame.length ≤ l.blockSize ∨ n.block.links.length ≤ 2

theorem framesLength_le_of_valid {links : List Link} (hvalid : ∀ k ∈ links, k.Valid) :
    Block.framesLength links ≤ 65551 * links.length := by
  induction links with
  | nil => exact Nat.le_refl 0
  | cons k links ih =>
    rw [List.forall_mem_cons] at hvalid
    have hk : k.bodyLength ≤ 65535 := hvalid.1.2.2.2
    have hlinks := ih hvalid.2
    rw [Block.framesLength, Link.byteLength, List.length_cons]
    omega

theorem exists_index (haccepts : l.accepts) (hstores : l.Stores) {group : List Link}
    (htakes : Takes l.capacity group) (hvalid : ∀ k ∈ group, k.Valid) :
    ∃ n, l.node filler { links := group } = .ok n := by
  obtain ⟨hcapacity, hlimit⟩ := capacity_add haccepts
  refine exists_node_iff.mpr
    ⟨Block.Draft.exists_build_iff.mpr ⟨htakes.length_le, ?_⟩, hstores⟩
  change 16 + Block.framesLength group ≤ 2 ^ 31
  rcases Nat.lt_or_ge 2 group.length with hmany | hfew
  · have hroom := htakes.framesLength_le hmany
    omega
  · have hlong := framesLength_le_of_valid hvalid
    omega

theorem Makes.indexBlock {group : List Link} (hn : l.Makes { links := group } n)
    (haccepts : l.accepts) (hne : group ≠ []) (htakes : Takes l.capacity group) :
    l.IndexBlock n := by
  obtain ⟨filler, hn⟩ := hn
  obtain ⟨hb, -⟩ := node_eq_ok_iff.mp hn
  obtain ⟨hcapacity, -⟩ := capacity_add haccepts
  obtain ⟨hlinks, hcontent, -⟩ := Block.Draft.frame_of_build hb
  refine ⟨hcontent, ?_, ?_, ?_⟩
  · rw [hlinks]
    exact List.length_pos_iff.mpr hne
  · rw [hlinks]
    exact htakes.length_le
  · rw [hlinks]
    refine (Nat.lt_or_ge 2 group.length).imp_left fun hmany => ?_
    have hroom := htakes.framesLength_le hmany
    exact length_frame_le haccepts hb rfl
      (show 16 + Block.framesLength group ≤ l.blockSize by omega)

/-! ## Levels -/

/-- The links of a level of index blocks, in order, are those to the level below. -/
def Spans (below above : List FileNode) : Prop :=
  (above.map fun n => n.block.links).flatten = below.map FileNode.link

theorem spans_of_forall₂ {below above : List FileNode}
    (h : List.Forall₂ (fun links => l.Makes { links := links })
      (l.group (below.map FileNode.link)) above) : Spans below above := by
  have hlinks : above.map (fun n => n.block.links) = l.group (below.map FileNode.link) := by
    refine Result.map_eq_of_forall₂ (fun links n hn => ?_) h
    obtain ⟨filler, hn⟩ := hn
    exact (Block.Draft.frame_of_build (node_eq_ok_iff.mp hn).1).1
  rw [Spans, hlinks, flatten_group]

/-- The levels above one: index blocks, each level linking to the one below, up to a single root. -/
structure Levels (l : Layout) (leaves : List FileNode) (indexes : List (List FileNode))
    (root : FileNode) : Prop where
  indexBlock : ∀ level ∈ indexes, ∀ n ∈ level, l.IndexBlock n
  isChain : (leaves :: indexes).IsChain Spans
  getLast?_eq : (leaves :: indexes).getLast? = some [root]

theorem levels_of_rounds (haccepts : l.accepts) {s : Ascent} {root : FileNode}
    {nodes : List FileNode}
    (h : Relation.ReflTransGen (l.Round fillers) s ⟨[root], nodes⟩) :
    ∃ indexes, nodes = s.nodes ++ indexes.flatten ∧ l.Levels s.level indexes root ∧
      ∀ level ∈ indexes, ∀ n ∈ level, l.Encloses n := by
  induction h using Relation.ReflTransGen.head_induction_on with
  | refl => exact ⟨[], by simp, ⟨by simp, List.isChain_singleton _, rfl⟩, by simp⟩
  | head hround _ ih =>
    obtain ⟨indexes, hnodes, hlevels, hencloses⟩ := ih
    cases hround with
    | @rise level done above hmany habove =>
      have hmakes := makes_of_indexDrafts habove
      have hindex : ∀ n ∈ above, l.IndexBlock n ∧ l.Encloses n := by
        intro n hn
        obtain ⟨group, hgroup, hmade⟩ := Result.exists_mem_of_mem hmakes hn
        exact ⟨hmade.indexBlock haccepts (ne_nil_of_mem_group hgroup) (takes_of_mem_group hgroup),
          hmade.encloses⟩
      refine ⟨above :: indexes, ?_, ⟨?_, ?_, ?_⟩, ?_⟩
      · rw [hnodes, List.flatten_cons, List.append_assoc]
      · exact List.forall_mem_cons.mpr ⟨fun n hn => (hindex n hn).1, hlevels.indexBlock⟩
      · exact List.isChain_cons_cons.mpr ⟨spans_of_forall₂ hmakes, hlevels.isChain⟩
      · rw [List.getLast?_cons_cons]
        exact hlevels.getLast?_eq
      · exact List.forall_mem_cons.mpr ⟨fun n hn => (hindex n hn).2, hencloses⟩

theorem levels_of_climb (haccepts : l.accepts) {levels : Nat} {below done : List FileNode}
    {t : FileTree} (hclimb : l.climb fillers levels (below.map FileNode.link) done = .ok t) :
    ∃ indexes root, t.nodes = done ++ indexes.flatten ∧ t.root = root.link ∧
      l.Levels below indexes root ∧ ∀ level ∈ indexes, ∀ n ∈ level, l.Encloses n := by
  obtain ⟨root, hrounds, hroot⟩ := exists_rounds_of_climb hclimb
  obtain ⟨indexes, hnodes, hlevels, hencloses⟩ := levels_of_rounds haccepts hrounds
  exact ⟨indexes, root, hnodes, hroot, hlevels, hencloses⟩

theorem exists_round (fillers : Fillers) (haccepts : l.accepts) (hstores : l.Stores) {s : Ascent}
    (hmany : 2 ≤ s.level.length) (hsound : ∀ n ∈ s.level, n.Sound) :
    ∃ s', l.Round fillers s s' := by
  have hindex : ∀ draft ∈ l.indexDrafts (s.level.map FileNode.link), ∀ filler,
      ∃ n, l.node filler draft = .ok n := by
    refine List.forall_mem_map.mpr fun group hgroup filler => ?_
    refine exists_index haccepts hstores (takes_of_mem_group hgroup) fun k hk => ?_
    exact (FileNode.valid_links hsound k (mem_of_mem_group hgroup hk)).1
  obtain ⟨above, habove⟩ := exists_nodes fillers s.nodes.length hindex
  exact ⟨_, .rise hmany habove⟩

/-- A level always comes to a root: each round leaves fewer nodes, and none fails. -/
theorem exists_rounds (fillers : Fillers) (haccepts : l.accepts) (hstores : l.Stores) {s : Ascent}
    (hne : s.level ≠ []) (hsound : ∀ n ∈ s.level, n.Sound) :
    ∃ root nodes, Relation.ReflTransGen (l.Round fillers) s ⟨[root], nodes⟩ := by
  -- on the length of the level, which every round lowers
  induction hlength : s.level.length using Nat.strong_induction_on generalizing s with
  | _ length ih =>
    by_cases hroot : ∃ root, s.level = [root]
    · obtain ⟨root, hroot⟩ := hroot
      exact ⟨root, s.nodes, hroot ▸ Relation.ReflTransGen.refl⟩
    · have hmany : 2 ≤ s.level.length := two_le_length (not_exists.mp hroot) hne
      obtain ⟨s', hround⟩ := exists_round fillers haccepts hstores hmany hsound
      obtain ⟨root, nodes, hrounds⟩ := ih _ (hlength ▸ hround.length_lt) hround.level_ne_nil
        (hround.sound_level hsound) rfl
      exact ⟨root, nodes, hrounds.head hround⟩

/-- The groups of a level lose no link and are packed, and nothing else is. They are fewer than the
links, so every round leaves a shorter level, and above any leaves the rounds come to one root. What
they come to is what `climb` gives, and with it `build`. -/
theorem levels_shrink_to_root (haccepts : l.accepts) :
    (∀ links groups, l.group links = groups ↔ groups.flatten = links ∧ l.Packed groups) ∧
    (∀ links, 2 ≤ links.length → (l.group links).length < links.length) ∧
    ∀ fillers,
      (∀ s s', l.Round fillers s s' → s'.level.length < s.level.length) ∧
      ∀ leaves, leaves ≠ [] → (∀ n ∈ leaves, ∃ piece, l.Makes { content := piece } n) →
        ∃ root nodes,
          Relation.ReflTransGen (l.Round fillers) ⟨leaves, leaves⟩ ⟨[root], nodes⟩ ∧
          (∀ levels, leaves.length ≤ levels + 1 →
            l.climb fillers levels (leaves.map FileNode.link) leaves = .ok ⟨root.link, nodes⟩) ∧
          ∀ data, l.nodes fillers 0 (l.leafDrafts data) = .ok leaves →
            l.build fillers data = .ok ⟨root.link, nodes⟩ := by
  refine ⟨fun links groups => group_eq_iff, fun links => length_group_lt, fun fillers =>
    ⟨fun s s' => Round.length_lt, fun leaves hne hleaves => ?_⟩⟩
  -- settings that stored one leaf store every block
  have hstores : l.Stores := by
    obtain ⟨n, hn⟩ := List.exists_mem_of_ne_nil leaves hne
    obtain ⟨piece, filler, hpiece⟩ := hleaves n hn
    exact (exists_node_iff.mp ⟨n, hpiece⟩).2
  have hsound : ∀ n ∈ leaves, n.Sound := by
    intro n hn
    obtain ⟨piece, hpiece⟩ := hleaves n hn
    exact (hpiece.sound (by simp)).1
  obtain ⟨root, nodes, hrounds⟩ :=
    exists_rounds fillers (s := ⟨leaves, leaves⟩) haccepts hstores hne hsound
  refine ⟨root, nodes, hrounds, fun levels => climb_of_rounds hrounds, fun data hdata => ?_⟩
  rw [build, if_pos haccepts]
  exact Result.bind_eq_ok_iff.mpr ⟨leaves, hdata, climb_of_rounds hrounds (Nat.le_succ _)⟩

/-- Blocks of 32 bytes have no room for a single link. Groups still take two of them, so three
hundred leaves have a root. -/
theorem levels_shrink_to_root_narrow :
    let l : Layout := { blockSize := 32 }
    let k : Link := ⟨"t", none⟩
    l.accepts ∧ l.group [k, k, k] = [[k, k], [k]] ∧
      ∃ n root nodes, l.node [] { content := [] } = .ok n ∧
        Relation.ReflTransGen (l.Round .counting) ⟨List.replicate 300 n, List.replicate 300 n⟩
          ⟨[root], nodes⟩ := by
  intro l k
  have haccepts : l.accepts := by decide
  obtain ⟨hgroup, -, hclimb⟩ := levels_shrink_to_root haccepts
  refine ⟨haccepts, ?_, ?_⟩
  · have hlength : k.frame.length = 17 := (Link.length_frame k).trans (by decide)
    rw [hgroup]
    refine ⟨rfl, by decide, by decide, by decide, by decide, ?_⟩
    refine List.isChain_pair.mpr (Or.inr ⟨k, rfl, ?_⟩)
    simp only [List.map_cons, List.map_nil, List.sum_cons, List.sum_nil, hlength]
    decide
  · obtain ⟨n, hn⟩ : ∃ n, l.node [] { content := [] } = .ok n :=
      exists_leaf haccepts nofun (Nat.zero_le _)
    have hne : List.replicate 300 n ≠ [] := List.cons_ne_nil n (List.replicate 299 n)
    obtain ⟨root, nodes, hrounds, -⟩ := (hclimb .counting).2 (List.replicate 300 n) hne
      fun m hm => ⟨[], [], List.eq_of_mem_replicate hm ▸ hn⟩
    exact ⟨n, root, nodes, hn, hrounds⟩

/-! ## Files -/

theorem length_leafContents_pos (h : 0 < l.capacity) (data : Bytes) :
    0 < (l.leafContents data).length := by
  rw [leafContents_eq h, List.length_map, List.length_range]
  omega

/-- What a file needs to be built: nothing of it depends on the data. -/
theorem exists_build_iff : (∃ t, l.build fillers data = .ok t) ↔ l.accepts ∧ l.Stores := by
  constructor
  · rintro ⟨t, ht⟩
    rw [build] at ht
    split at ht
    · next haccepts =>
      obtain ⟨leaves, hleaves, -⟩ := Result.bind_eq_ok_iff.mp ht
      obtain ⟨piece, hpiece⟩ :=
        List.exists_mem_of_length_pos (length_leafContents_pos (capacity_pos haccepts) data)
      obtain ⟨n, filler, hn⟩ := Result.exists_of_mem (makes_of_leafDrafts hleaves) hpiece
      exact ⟨haccepts, (exists_node_iff.mp ⟨n, hn⟩).2⟩
    · cases ht
  · rintro ⟨haccepts, hstores⟩
    have hcapacity := capacity_pos haccepts
    have hpieces : ∀ draft ∈ l.leafDrafts data, ∀ filler, ∃ n, l.node filler draft = .ok n :=
      List.forall_mem_map.mpr fun piece hp filler =>
        exists_leaf haccepts hstores (length_le_of_mem_leafContents hcapacity hp)
    obtain ⟨leaves, hleaves⟩ := exists_nodes fillers 0 hpieces
    have hmakes := makes_of_leafDrafts hleaves
    have hpos := length_leafContents_pos hcapacity data
    rw [hmakes.length_eq] at hpos
    have hsound : ∀ n ∈ leaves, n.Sound := by
      intro n hn
      obtain ⟨piece, -, hmade⟩ := Result.exists_mem_of_mem hmakes hn
      exact (hmade.sound (by simp)).1
    obtain ⟨root, nodes, hrounds⟩ := exists_rounds fillers (s := ⟨leaves, leaves⟩) haccepts hstores
      (List.length_pos_iff.mp hpos) hsound
    rw [build, if_pos haccepts]
    exact ⟨⟨root.link, nodes⟩, Result.bind_eq_ok_iff.mpr
      ⟨leaves, hleaves, climb_of_rounds hrounds (Nat.le_succ _)⟩⟩

/-- The blocks are put out in the order of the nodes, encrypted or as they are. -/
def PutsOut (l : Layout) (t : FileTree) : Prop :=
  if l.encrypt then
    t.plaintext = [] ∧
      List.Forall₂ (fun n e => n.block.encrypt l.crypto = .ok e ∧ n.link = e.link)
        t.nodes t.encrypted
  else
    List.Forall₂ (fun n b => n.block = b ∧ n.link = b.link) t.nodes t.plaintext ∧
      t.encrypted = []

theorem putsOut_of_encloses {t : FileTree} (h : ∀ n ∈ t.nodes, l.Encloses n) : l.PutsOut t := by
  obtain ⟨root, nodes⟩ := t
  induction nodes with
  | nil => simp [PutsOut, plaintext, encrypted]
  | cons n nodes ih =>
    rw [List.forall_mem_cons] at h
    obtain ⟨hn, hnodes⟩ := h
    have hrest := ih hnodes
    obtain ⟨block, enclosed⟩ := n
    by_cases hencrypt : l.encrypt
    · simp only [Encloses, PutsOut, hencrypt, if_true] at hn hrest ⊢
      obtain ⟨e, he, rfl⟩ := hn
      exact ⟨hrest.1, .cons ⟨he, rfl⟩ hrest.2⟩
    · simp only [Encloses, PutsOut, hencrypt, if_false, Bool.false_eq_true] at hn hrest ⊢
      subst hn
      exact ⟨.cons ⟨rfl, rfl⟩ hrest.1, hrest.2⟩

theorem Levels.getLast?_nodes {leaves : List FileNode} {indexes : List (List FileNode)}
    {root : FileNode} (h : l.Levels leaves indexes root) :
    (leaves ++ indexes.flatten).getLast? = some root := by
  obtain ⟨before, hbefore⟩ := List.getLast?_eq_some_iff.mp h.getLast?_eq
  rw [← List.flatten_cons, hbefore, List.flatten_append, List.flatten_singleton,
    List.getLast?_concat]

/-- When a file is refused, and which blocks it is cut into. A block size has to be a power of two
between 32 and 2^31, and encryption needs a key size that AES has, a known cipher and a digest as
long as the key. The leaves come first and hold the data in order; above them each level of index
blocks links to the whole level below, up to the root, which comes last. -/
theorem build_shape (l : Layout) (fillers : Fillers) (data : Bytes) :
    ((∃ e, l.build fillers data = .error e) ↔
      (¬ ∃ k, 5 ≤ k ∧ k ≤ 31 ∧ l.blockSize = 2 ^ k) ∨
      (l.encrypt ∧
        (¬ (l.crypto.keyBits = 128 ∨ l.crypto.keyBits = 192 ∨ l.crypto.keyBits = 256) ∨
        (∀ t, Transformation.parse l.crypto.cipher ≠ .ok t) ∨
        l.crypto.digest.size < l.crypto.keyBits / 8))) ∧
    ∀ t, l.build fillers data = .ok t →
      l.PutsOut t ∧ ∃ leaves indexes root,
        t.nodes = leaves ++ indexes.flatten ∧
        l.Leaves data leaves ∧
        l.Levels leaves indexes root ∧
        t.nodes.getLast? = some root ∧
        t.root = root.link ∧ t.root.target = root.name := by
  constructor
  · have hfails : (∃ e, l.build fillers data = .error e) ↔ ¬ ∃ t, l.build fillers data = .ok t := by
      cases l.build fillers data <;> simp
    rw [hfails, exists_build_iff, accepts_iff, not_and_or, Stores, Classical.not_imp,
      not_and_or, not_and_or, Nat.not_le]
    simp only [not_exists]
  · intro t ht
    obtain ⟨hsound, -⟩ := exists_spells_of_build ht
    rw [build] at ht
    split at ht
    · next haccepts =>
      obtain ⟨leaves, hleaves, hclimb⟩ := Result.bind_eq_ok_iff.mp ht
      have hpieces := makes_of_leafDrafts hleaves
      obtain ⟨indexes, root, hnodes, hroot, hlevels, hencloses⟩ := levels_of_climb haccepts hclimb
      have hlast : t.nodes.getLast? = some root := hnodes ▸ hlevels.getLast?_nodes
      refine ⟨putsOut_of_encloses fun n hn => ?_, leaves, indexes, root, hnodes,
        leaves_of_forall₂ haccepts hpieces, hlevels, hlast, hroot, ?_⟩
      · rcases List.mem_append.mp (hnodes ▸ hn) with hn | hn
        · obtain ⟨piece, -, hmade⟩ := Result.exists_mem_of_mem hpieces hn
          exact hmade.encloses
        · obtain ⟨level, hlevel, hn⟩ := List.mem_flatten.mp hn
          exact hencloses level hlevel n hn
      · rw [hroot]
        exact (hsound root (List.mem_of_getLast? hlast)).target_link
    · cases ht

/-- Forty bytes in encrypted blocks of 32 bytes are three leaves. -/
theorem build_shape_forty_bytes :
    let l : Layout := { blockSize := 32, encrypt := true }
    let data := List.replicate 40 (9 : UInt8)
    ∃ t, l.build .counting data = .ok t ∧ t.plaintext = [] ∧ ∃ leaves, leaves <+: t.nodes ∧
      leaves.map (fun n => n.block.content) =
        [List.replicate 16 9, List.replicate 16 9, List.replicate 8 9] := by
  intro l data
  obtain ⟨hfails, hshape⟩ := build_shape l .counting data
  have hok : ¬ ∃ e, l.build .counting data = .error e := by
    rw [hfails, not_or, not_not]
    refine ⟨⟨5, by decide, by decide, rfl⟩, ?_⟩
    rintro ⟨-, hbits | hcipher | hshort⟩
    · exact hbits (Or.inl rfl)
    · exact hcipher _ (Transformation.parse_name .standard)
    · exact absurd hshort (by decide)
  cases hbuild : l.build .counting data with
  | error e => exact absurd ⟨e, hbuild⟩ hok
  | ok t =>
    obtain ⟨hout, leaves, indexes, root, hnodes, hleaves, -⟩ := hshape t hbuild
    refine ⟨t, rfl, hout.1, leaves, ⟨_, hnodes.symm⟩, ?_⟩
    have hthree : leaves.length = 3 := by
      rw [hleaves.length_eq, Nat.ceilDiv_eq_add_pred_div]
      simp [l, data]
    rw [hleaves.content_eq, hthree]
    rfl

end Layout

end FileTree

end ContentAddressed
