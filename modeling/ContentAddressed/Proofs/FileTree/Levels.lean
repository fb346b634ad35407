import ContentAddressed.Proofs.FileTree.Rounds

/-!
# Levels of a file tree

Grouping loses no link and leaves no group empty, so what the links of one level spell, the links of
the next level spell as well. The root of a built tree spells the data.
-/

namespace ContentAddressed.FileTree

/-- A link to a node of `pool` whose leaves, all `height` levels below it, hold `data`. -/
def Spells (pool : List FileNode) : (height : Nat) → Link → Bytes → Prop
  | 0, l, data => ∃ n ∈ pool, n.link = l ∧ n.block.links = [] ∧ n.block.content = data
  | h + 1, l, data => ∃ n ∈ pool, n.link = l ∧ n.block.content = [] ∧ n.block.links ≠ [] ∧
    ∃ parts, List.Forall₂ (Spells pool h) n.block.links parts ∧ parts.flatten = data

theorem Spells.mono {pool pool' : List FileNode} (hp : pool ⊆ pool') {h : Nat} {l : Link}
    {data : Bytes} (hs : Spells pool h l data) : Spells pool' h l data := by
  induction h generalizing l data with
  | zero =>
    obtain ⟨n, hn, hl⟩ := hs
    exact ⟨n, hp hn, hl⟩
  | succ h ih =>
    obtain ⟨n, hn, hl, hc, hne, parts, hparts, hdata⟩ := hs
    exact ⟨n, hp hn, hl, hc, hne, parts, hparts.imp fun _ _ => ih, hdata⟩

/-- A relation between two lists, one of them in groups, cuts the other one into groups. -/
theorem exists_groups {α β : Type} {R : α → β → Prop} {groups : List (List α)} {bs : List β}
    (h : List.Forall₂ R groups.flatten bs) :
    ∃ pieces, List.Forall₂ (List.Forall₂ R) groups pieces ∧ pieces.flatten = bs := by
  induction groups generalizing bs with
  | nil =>
    rw [List.flatten_nil, List.forall₂_nil_left_iff] at h
    exact ⟨[], List.Forall₂.nil, h.symm⟩
  | cons g groups ih =>
    have htake := List.forall₂_take g.length h
    have hdrop := List.forall₂_drop g.length h
    rw [List.flatten_cons, List.take_left] at htake
    rw [List.flatten_cons, List.drop_left] at hdrop
    obtain ⟨pieces, hpieces, hflat⟩ := ih hdrop
    exact ⟨bs.take g.length :: pieces, List.Forall₂.cons htake hpieces,
      by rw [List.flatten_cons, hflat, List.take_append_drop]⟩

namespace Layout

variable {l : Layout} {fillers : Fillers}

theorem flatten_leafContents (h : 0 < l.capacity) (data : Bytes) :
    (l.leafContents data).flatten = data := by
  rw [leafContents]
  split
  · next hempty => simpa using hempty.symm
  · exact Bytes.flatten_chunks h data

theorem capacity_pos (h : l.accepts) : 0 < l.capacity := by
  simp only [accepts, Bool.and_eq_true, decide_eq_true_eq] at h
  obtain ⟨⟨-, hsize⟩, -⟩ := h
  rw [Block.headerLength] at hsize
  rw [capacity, Block.headerLength]
  omega

theorem spells_leaves {pieces : List Bytes} {nodes pool : List FileNode}
    (h : List.Forall₂ (fun piece => l.Makes { content := piece }) pieces nodes)
    (hpool : nodes ⊆ pool) :
    (∀ n ∈ nodes, n.Sound) ∧ List.Forall₂ (Spells pool 0) (nodes.map FileNode.link) pieces := by
  induction h with
  | nil => exact ⟨by simp, List.Forall₂.nil⟩
  | @cons piece n pieces nodes hmade _ ih =>
    rw [List.cons_subset] at hpool
    obtain ⟨hsound, hlinks, hcontent⟩ := hmade.sound (by simp)
    obtain ⟨hnodes, hspells⟩ := ih hpool.2
    exact ⟨List.forall_mem_cons.mpr ⟨hsound, hnodes⟩,
      List.Forall₂.cons ⟨n, hpool.1, rfl, hlinks, hcontent⟩ hspells⟩

theorem spells_index {groups : List (List Link)} {nodes done pool : List FileNode} {h : Nat}
    {pieces : List (List Bytes)}
    (hnodes : List.Forall₂ (fun links => l.Makes { links := links }) groups nodes)
    (hpieces : List.Forall₂ (List.Forall₂ (Spells done h)) groups pieces)
    (hgroups : ∀ group ∈ groups, group ≠ [] ∧ ∀ k ∈ group, k.Valid ∧ k.Canonical)
    (hdone : done ⊆ pool) (hpool : nodes ⊆ pool) :
    List.Forall₂ (Spells pool (h + 1)) (nodes.map FileNode.link) (pieces.map List.flatten) := by
  induction hnodes generalizing pieces with
  | nil =>
    rw [List.forall₂_nil_left_iff] at hpieces
    subst hpieces
    exact List.Forall₂.nil
  | @cons group n groups nodes hmade _ ih =>
    obtain ⟨parts, pieces', hparts, hrest, rfl⟩ := List.forall₂_cons_left_iff.mp hpieces
    rw [List.forall_mem_cons] at hgroups
    rw [List.cons_subset] at hpool
    obtain ⟨⟨hne, hvalid⟩, hgroups⟩ := hgroups
    obtain ⟨-, hlinks, hcontent⟩ := hmade.sound hvalid
    refine List.Forall₂.cons ?_ (ih hrest hgroups hpool.2)
    exact ⟨n, hpool.1, rfl, hcontent, hlinks ▸ hne, parts,
      hlinks ▸ hparts.imp fun _ _ hs => hs.mono hdone, rfl⟩

/-- What every round keeps: all nodes are sound, and the level reached spells the data. -/
structure Ascent.Carries (s : Ascent) (data : Bytes) : Prop where
  sound : ∀ n ∈ s.nodes, n.Sound
  level_subset : s.level ⊆ s.nodes
  spells : ∃ height parts,
    List.Forall₂ (Spells s.nodes height) (s.level.map FileNode.link) parts ∧ parts.flatten = data

variable {s s' : Ascent} {data : Bytes}

theorem Ascent.Carries.round (h : s.Carries data) (hround : l.Round fillers s s') :
    s'.Carries data := by
  have hlevel : ∀ n ∈ s.level, n.Sound := fun n hn => h.sound n (h.level_subset hn)
  have hsound := hround.sound_level hlevel
  obtain ⟨height, parts, hparts, hdata⟩ := h.spells
  cases hround with
  | @rise level nodes above hmany habove =>
    rw [← l.flatten_group (level.map FileNode.link)] at hparts
    obtain ⟨pieces, hpieces, rfl⟩ := exists_groups hparts
    refine ⟨?_, List.subset_append_right nodes above, height + 1, pieces.map List.flatten, ?_, ?_⟩
    · exact List.forall_mem_append.mpr ⟨h.sound, hsound⟩
    · refine spells_index (makes_of_indexDrafts habove) hpieces
        (fun group hgroup => ⟨ne_nil_of_mem_group hgroup, ?_⟩)
        (List.subset_append_left nodes above) (List.subset_append_right nodes above)
      exact fun k hk => FileNode.valid_links hlevel k (mem_of_mem_group hgroup hk)
    · rw [← List.flatten_flatten, hdata]

theorem Ascent.Carries.rounds (h : s.Carries data)
    (hrounds : Relation.ReflTransGen (l.Round fillers) s s') : s'.Carries data := by
  induction hrounds with
  | refl => exact h
  | tail _ hround ih => exact ih.round hround

/-- A file that is built has sound nodes, and a root that spells the data. -/
theorem exists_spells_of_build {t : FileTree} (h : l.build fillers data = .ok t) :
    (∀ n ∈ t.nodes, n.Sound) ∧ ∃ height, Spells t.nodes height t.root data := by
  rw [build] at h
  split at h
  · next haccepts =>
    obtain ⟨leaves, hleaves, hclimb⟩ := Result.bind_eq_ok_iff.mp h
    obtain ⟨hsound, hspells⟩ := spells_leaves (makes_of_leafDrafts hleaves)
      (List.Subset.refl leaves)
    obtain ⟨root, hrounds, hroot⟩ := exists_rounds_of_climb hclimb
    have hleaves : Ascent.Carries ⟨leaves, leaves⟩ data :=
      ⟨hsound, List.Subset.refl leaves, 0, _, hspells,
        flatten_leafContents (capacity_pos haccepts) data⟩
    obtain ⟨hnodes, -, height, parts, hparts, hdata⟩ := hleaves.rounds hrounds
    obtain ⟨part, rest, hpart, hrest, rfl⟩ := List.forall₂_cons_left_iff.mp hparts
    obtain rfl := List.forall₂_nil_left_iff.mp hrest
    rw [List.flatten_singleton] at hdata
    exact ⟨hnodes, height, hroot ▸ hdata ▸ hpart⟩
  · cases h

theorem build_of_leaf {data piece : Bytes} {n : FileNode} (haccepts : l.accepts)
    (hpiece : l.leafContents data = [piece])
    (hn : l.node (fillers.get 0) { content := piece } = .ok n) :
    l.build fillers data = .ok ⟨n.link, [n]⟩ := by
  have hleaves : l.nodes fillers 0 (l.leafDrafts data) = .ok [n] := by
    rw [leafDrafts, hpiece]
    exact nodes_cons_eq_ok_iff.mpr ⟨n, [], hn, rfl, rfl⟩
  rw [build, if_pos haccepts]
  exact Result.bind_eq_ok_iff.mpr ⟨[n], hleaves, rfl⟩

end Layout

/-- Nodes that are stored under one name have one frame. -/
def NamesApart (pool : List FileNode) : Prop :=
  ∀ n ∈ pool, ∀ m ∈ pool, n.name = m.name → n.block.frame = m.block.frame

theorem NamesApart.eq_of_target_eq {pool : List FileNode} (hapart : NamesApart pool)
    (hsound : ∀ n ∈ pool, n.Sound) {n m : FileNode} (hn : n ∈ pool) (hm : m ∈ pool)
    (h : n.link.target = m.link.target) :
    n.block.links = m.block.links ∧ n.block.content = m.block.content := by
  rw [(hsound n hn).target_link, (hsound m hm).target_link] at h
  exact (hsound n hn).eq_of_frame_eq (hsound m hm) (hapart n hn m hm h)

/-- The target of a link determines what the link spells and how high the tree below it is. In
particular no name is met again below itself. -/
theorem Spells.unique {pool : List FileNode} (hapart : NamesApart pool)
    (hsound : ∀ n ∈ pool, n.Sound) {h h' : Nat} {l l' : Link} {data data' : Bytes}
    (hs : Spells pool h l data) (hs' : Spells pool h' l' data') (htarget : l.target = l'.target) :
    h = h' ∧ data = data' := by
  induction h generalizing h' l l' data data' with
  | zero =>
    obtain ⟨n, hn, rfl, hlinks, rfl⟩ := hs
    cases h' with
    | zero =>
      obtain ⟨m, hm, rfl, -, rfl⟩ := hs'
      exact ⟨rfl, (hapart.eq_of_target_eq hsound hn hm htarget).2⟩
    | succ h' =>
      obtain ⟨m, hm, rfl, -, hne, -⟩ := hs'
      exact absurd ((hapart.eq_of_target_eq hsound hn hm htarget).1 ▸ hlinks) hne
  | succ h ih =>
    obtain ⟨n, hn, rfl, -, hne, parts, hparts, rfl⟩ := hs
    cases h' with
    | zero =>
      obtain ⟨m, hm, rfl, hlinks, -⟩ := hs'
      exact absurd ((hapart.eq_of_target_eq hsound hn hm htarget).1.trans hlinks) hne
    | succ h' =>
      obtain ⟨m, hm, rfl, -, -, parts', hparts', rfl⟩ := hs'
      rw [← (hapart.eq_of_target_eq hsound hn hm htarget).1] at hparts'
      -- the first link fixes the height of the level below, then the parts agree one by one
      obtain ⟨k, links, hlinks⟩ := List.exists_cons_of_ne_nil hne
      have hheight : h = h' := by
        rw [hlinks] at hparts hparts'
        cases hparts with
        | cons hk _ =>
          cases hparts' with
          | cons hk' _ => exact (ih hk hk' rfl).1
      subst hheight
      have hunique : Relator.RightUnique (Spells pool h) := fun _ _ _ hp hp' => (ih hp hp' rfl).2
      exact ⟨rfl, congrArg List.flatten (List.right_unique_forall₂' hunique hparts hparts')⟩

end ContentAddressed.FileTree
