import ContentAddressed.FileTree
import ContentAddressed.Proofs.Block.RoundTrip
import ContentAddressed.Proofs.Block.Sealed
import ContentAddressed.Proofs.Walk.Step

/-!
# Blocks of a file

The link of a node names the bytes that are stored for it, and opens them to its links and its
content, whether they are encrypted or not.
-/

namespace ContentAddressed

theorem Transformation.decrypt_nil {t : Transformation} {key iv plain : Bytes}
    (h : t.decrypt key iv [] = .ok plain) : plain = [] := by
  obtain ⟨start, -, h⟩ := Result.bind_eq_ok_iff.mp h
  obtain ⟨p, -, h⟩ := Result.bind_eq_ok_iff.mp h
  cases t with
  | counter => exact (Except.ok.inj h).symm
  | chaining => cases h

theorem Link.decrypt_nil (l : Link) (b : Block) : l.decrypt [] ≠ .ok b := by
  intro h
  obtain ⟨d, -, -, t, plain, -, hplain, hparse⟩ := decrypt_eq_ok_iff.mp h
  obtain rfl := Transformation.decrypt_nil hplain
  obtain ⟨exponent, -, -, -, hsize, -⟩ := Block.parse_eq_ok_iff.mp hparse
  exact absurd hsize.symm (Nat.two_pow_pos exponent).ne'

namespace FileNode

def name (n : FileNode) : String :=
  match n.enclosed with
  | some e => e.name.encode
  | none => n.block.name

def bytes (n : FileNode) : Bytes :=
  match n.enclosed with
  | some e => e.ciphertext
  | none => n.block.frame

/-- A node whose frame reads back, and whose encrypted form encloses it. -/
structure Sound (n : FileNode) : Prop where
  parse_frame : ∀ a, Block.parse a n.block.frame =
    .ok ⟨n.block.links, n.block.content, n.block.frame, Fingerprint.of a n.block.frame⟩
  isOf_frame : n.block.fingerprint.isOf n.block.frame
  encloses : ∀ e ∈ n.enclosed, e.Encloses n.block

variable {n m : FileNode}

theorem Sound.target_link (h : n.Sound) : n.link.target = n.name := by
  obtain ⟨block, enclosed⟩ := n
  cases enclosed with
  | none => rfl
  | some e => exact (h.encloses e rfl).target_eq

theorem Sound.valid_link (h : n.Sound) : n.link.Valid ∧ n.link.Canonical := by
  obtain ⟨block, enclosed⟩ := n
  cases enclosed with
  | none => exact ⟨Link.valid_ofFingerprint _, Link.canonical_ofFingerprint _⟩
  | some e => exact ⟨(h.encloses e rfl).valid, (h.encloses e rfl).canonical⟩

theorem valid_links {nodes : List FileNode} (h : ∀ n ∈ nodes, n.Sound) :
    ∀ k ∈ nodes.map link, k.Valid ∧ k.Canonical :=
  List.forall_mem_map.mpr fun n hn => (h n hn).valid_link

theorem Sound.eq_of_frame_eq (hn : n.Sound) (hm : m.Sound) (h : n.block.frame = m.block.frame) :
    n.block.links = m.block.links ∧ n.block.content = m.block.content := by
  have hparse := hn.parse_frame .standard
  rw [h, hm.parse_frame .standard, Except.ok.injEq, Block.mk.injEq] at hparse
  exact ⟨hparse.1.symm, hparse.2.1.symm⟩

theorem Sound.admits (h : n.Sound) : n.link.admits n.bytes := by
  obtain ⟨block, enclosed⟩ := n
  cases enclosed with
  | none =>
    change (Link.ofFingerprint block.fingerprint).admits block.frame
    rw [Link.admits, Link.fingerprint?_eq_some (show _ = block.fingerprint.encode from rfl)]
    exact h.isOf_frame
  | some e =>
    change e.link.admits e.ciphertext
    rw [Link.admits, Link.fingerprint?_eq_some (h.encloses e rfl).target_eq]
    exact (h.encloses e rfl).isOf_ciphertext

theorem Sound.bytes_ne_nil (h : n.Sound) : n.bytes ≠ [] := by
  obtain ⟨block, enclosed⟩ := n
  cases enclosed with
  | none =>
    intro hnil
    have hparse := h.parse_frame .standard
    obtain ⟨exponent, -, -, -, hsize, -⟩ := Block.parse_eq_ok_iff.mp hparse
    change block.frame = [] at hnil
    rw [hnil] at hsize
    exact absurd hsize.symm (Nat.two_pow_pos exponent).ne'
  | some e =>
    intro hnil
    obtain ⟨a, hdecrypt⟩ := (h.encloses e rfl).decrypt_eq
    change e.ciphertext = [] at hnil
    rw [hnil, h.parse_frame a] at hdecrypt
    exact e.link.decrypt_nil _ hdecrypt

/-- A ciphertext that is no frame itself is opened with the key of its link. -/
theorem Sound.exists_openBytes? (h : n.Sound) (keys : Option Keychain)
    (hclosed : ∀ e ∈ n.enclosed, ∀ a b, Block.parse a e.ciphertext ≠ .ok b) :
    ∃ b, n.link.openBytes? keys n.bytes = some b ∧ b.links = n.block.links ∧
      b.content = n.block.content := by
  obtain ⟨block, enclosed⟩ := n
  cases enclosed with
  | none =>
    exact ⟨_, Link.openBytes?_of_parse (h.parse_frame _), rfl, rfl⟩
  | some e =>
    obtain ⟨a, hdecrypt⟩ := (h.encloses e rfl).decrypt_eq
    refine ⟨⟨block.links, block.content, block.frame, Fingerprint.of a block.frame⟩, ?_, rfl, rfl⟩
    change e.link.openBytes? keys e.ciphertext = _
    cases hparse : Block.parse e.link.digestAlgorithm e.ciphertext with
    | ok b => exact absurd hparse (hclosed e rfl _ _)
    | error err =>
      have hframe : Block.parse a block.frame = _ := h.parse_frame a
      simp only [Link.openBytes?, hparse, (h.encloses e rfl).hasKey, if_true, hdecrypt, hframe]
      rfl

end FileNode

/-- Padding that is not the same in any two of the first 256 blocks. -/
def Fillers.counting : Fillers := ⟨fun i => [UInt8.ofNat i]⟩

namespace FileTree

theorem mem_writes {t : FileTree} {n : FileNode} (h : n ∈ t.nodes) :
    (n.name, n.bytes) ∈ t.writes := by
  obtain ⟨block, enclosed⟩ := n
  rw [writes, List.mem_append]
  cases enclosed with
  | none =>
    refine Or.inl (List.mem_map.mpr ⟨block, ?_, rfl⟩)
    exact List.mem_filterMap.mpr ⟨_, h, rfl⟩
  | some e =>
    refine Or.inr (List.mem_map.mpr ⟨e, ?_, rfl⟩)
    exact List.mem_filterMap.mpr ⟨_, h, rfl⟩

theorem exists_of_mem_writes {t : FileTree} {e : String × Bytes} (h : e ∈ t.writes) :
    ∃ n ∈ t.nodes, e = (n.name, n.bytes) := by
  rw [writes, List.mem_append, List.mem_map, List.mem_map] at h
  rcases h with ⟨b, hb, rfl⟩ | ⟨e, he, rfl⟩
  · obtain ⟨⟨block, enclosed⟩, hn, hplain⟩ := List.mem_filterMap.mp hb
    cases enclosed with
    | none =>
      cases hplain
      exact ⟨_, hn, rfl⟩
    | some e => cases hplain
  · obtain ⟨⟨block, enclosed⟩, hn, henclosed⟩ := List.mem_filterMap.mp he
    cases henclosed
    exact ⟨_, hn, rfl⟩

namespace Layout

variable {l : Layout} {draft : Block.Draft} {n : FileNode}

/-- What a draft can become, whatever its padding. -/
def Makes (l : Layout) (draft : Block.Draft) (n : FileNode) : Prop :=
  ∃ filler, l.node filler draft = .ok n

theorem Makes.sound (h : l.Makes draft n) (hlinks : ∀ k ∈ draft.links, k.Valid ∧ k.Canonical) :
    n.Sound ∧ n.block.links = draft.links ∧ n.block.content = draft.content := by
  obtain ⟨filler, h⟩ := h
  obtain ⟨block, hblock, h⟩ := Result.bind_eq_ok_iff.mp h
  obtain ⟨hl, hc, hname, -⟩ := Block.Draft.frame_of_build hblock
  have hparse (a : DigestAlgorithm) : Block.parse a block.frame =
      .ok ⟨block.links, block.content, block.frame, Fingerprint.of a block.frame⟩ := by
    rw [hl, hc]
    exact Block.Draft.parse_of_build (d := { draft with digest := l.crypto.digest }) hlinks hblock a
  have hisOf : block.fingerprint.isOf block.frame := by
    rw [hname]
    exact Fingerprint.isOf_of _ _
  split at h
  · obtain ⟨e, he, h⟩ := Result.bind_eq_ok_iff.mp h
    obtain rfl := (Except.ok.inj h).symm
    refine ⟨⟨hparse, hisOf, fun e' he' => ?_⟩, hl, hc⟩
    cases he'
    exact Block.encloses_of_encrypt he
  · obtain rfl := (Except.ok.inj h).symm
    exact ⟨⟨hparse, hisOf, fun _ h => by cases h⟩, hl, hc⟩

theorem node_of_frame {filler : Bytes} {b : Block} (size : Nat) (hplain : l.encrypt = false)
    (hsize : { draft with digest := l.crypto.digest }.frameSize = .ok size)
    (hlinks : b.links = draft.links) (hcontent : b.content = draft.content)
    (hframe : b.frame =
      draft.body size ++ Bytes.cycle filler (size - draft.minimumSize))
    (hname : Fingerprint.of l.crypto.digest b.frame = b.fingerprint) :
    l.node filler draft = .ok ⟨b, none⟩ := by
  obtain ⟨links, content, frame, fingerprint⟩ := b
  dsimp only at hlinks hcontent hframe hname
  subst hlinks hcontent hframe hname
  refine Result.bind_eq_ok_iff.mpr ⟨_, Result.bind_eq_ok_iff.mpr ⟨size, hsize, rfl⟩, ?_⟩
  rw [if_neg (by simp [hplain])]
  rfl

/-! ### Nodes in a row -/

variable {fillers : Fillers} {first : Nat} {drafts : List Block.Draft} {ns : List FileNode}

theorem nodes_cons_eq_ok_iff : l.nodes fillers first (draft :: drafts) = .ok ns ↔
    ∃ n rest, l.node (fillers.get first) draft = .ok n ∧
      l.nodes fillers (first + 1) drafts = .ok rest ∧ ns = n :: rest := by
  simp only [nodes, Result.mapM_eq_ok_iff, List.zipIdx_cons, List.forall₂_cons_left_iff]

theorem makes_of_nodes (h : l.nodes fillers first drafts = .ok ns) :
    List.Forall₂ l.Makes drafts ns := by
  induction drafts generalizing first ns with
  | nil =>
    obtain rfl : [] = ns := Except.ok.inj h
    exact List.Forall₂.nil
  | cons draft drafts ih =>
    obtain ⟨n, rest, hn, hrest, rfl⟩ := nodes_cons_eq_ok_iff.mp h
    exact List.Forall₂.cons ⟨_, hn⟩ (ih hrest)

/-- Nodes fail only if one of the drafts does. -/
theorem exists_nodes (fillers : Fillers) (first : Nat)
    (h : ∀ draft ∈ drafts, ∀ filler, ∃ n, l.node filler draft = .ok n) :
    ∃ ns, l.nodes fillers first drafts = .ok ns := by
  induction drafts generalizing first with
  | nil => exact ⟨[], rfl⟩
  | cons draft drafts ih =>
    obtain ⟨hdraft, hdrafts⟩ := List.forall_mem_cons.mp h
    obtain ⟨n, hn⟩ := hdraft (fillers.get first)
    obtain ⟨rest, hrest⟩ := ih (first + 1) hdrafts
    exact ⟨n :: rest, nodes_cons_eq_ok_iff.mpr ⟨n, rest, hn, hrest, rfl⟩⟩

theorem makes_of_leafDrafts {data : Bytes}
    (h : l.nodes fillers first (l.leafDrafts data) = .ok ns) :
    List.Forall₂ (fun piece => l.Makes { content := piece }) (l.leafContents data) ns :=
  List.forall₂_map_left_iff.mp (makes_of_nodes h)

theorem makes_of_indexDrafts {level : List Link}
    (h : l.nodes fillers first (l.indexDrafts level) = .ok ns) :
    List.Forall₂ (fun links => l.Makes { links := links }) (l.group level) ns :=
  List.forall₂_map_left_iff.mp (makes_of_nodes h)

end Layout

end FileTree

end ContentAddressed
