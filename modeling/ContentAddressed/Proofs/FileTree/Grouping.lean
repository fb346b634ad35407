import ContentAddressed.FileTree
import ContentAddressed.Proofs.Block.Size
import Mathlib.Data.List.Chain

/-!
# Groups of links

Grouping loses no link and leaves no group empty. A group is what an index block takes, and it ends
only where the next link would not go in as well. That leaves one way to group a level. Groups
before the last one have two links, so a level with several links has fewer groups.
-/

namespace ContentAddressed

theorem Block.framesLength_reverse (ls : List Link) :
    framesLength ls.reverse = framesLength ls := by
  rw [framesLength_eq_sum, framesLength_eq_sum, List.map_reverse, List.sum_reverse]

theorem Block.framesLength_append (ls ls' : List Link) :
    framesLength (ls ++ ls') = framesLength ls + framesLength ls' := by
  rw [framesLength_eq_sum, framesLength_eq_sum, framesLength_eq_sum, List.map_append,
    List.sum_append]

namespace FileTree.Layout

variable {l : Layout} {capacity : Nat} {current links group : List Link}

/-! ## No link is lost -/

theorem flatten_groupFrom (capacity : Nat) (current : List Link) (used : Nat) (links : List Link) :
    (groupFrom capacity current used links).flatten = current.reverse ++ links := by
  induction links generalizing current used with
  | nil => cases current <;> simp [groupFrom]
  | cons k links ih =>
    rw [groupFrom]
    split
    · rw [List.flatten_cons, ih]
      simp
    · rw [ih]
      simp

theorem ne_nil_of_mem_groupFrom {used : Nat} (h : group ∈ groupFrom capacity current used links) :
    group ≠ [] := by
  induction links generalizing current used with
  | nil =>
    cases current with
    | nil => simp [groupFrom] at h
    | cons k current => simp_all [groupFrom]
  | cons k links ih =>
    rw [groupFrom] at h
    split at h
    · next hclose =>
      rcases List.mem_cons.mp h with rfl | h
      · -- a group closes with two links at least, or with all that a block takes
        rintro hnil
        rw [List.reverse_eq_nil_iff] at hnil
        subst hnil
        simp [Block.maxLinks] at hclose
      · exact ih h
    · exact ih h

theorem flatten_group (l : Layout) (links : List Link) : (l.group links).flatten = links :=
  flatten_groupFrom l.capacity [] 0 links

theorem mem_of_mem_group {k : Link} (h : group ∈ l.group links) (hk : k ∈ group) : k ∈ links :=
  l.flatten_group links ▸ List.mem_flatten_of_mem h hk

theorem ne_nil_of_mem_group (h : group ∈ l.group links) : group ≠ [] :=
  ne_nil_of_mem_groupFrom h

/-! ## How groups end -/

/-- A group that an index block takes. Two links are taken whatever their length. -/
structure Takes (capacity : Nat) (group : List Link) : Prop where
  length_le : group.length ≤ Block.maxLinks
  framesLength_le : 2 < group.length → Block.framesLength group ≤ capacity

/-- A group that takes no link of the next one: all links a header counts are there, or the first
link of the next group overfills a block. -/
def Closes (capacity : Nat) (group next : List Link) : Prop :=
  group.length = Block.maxLinks ∨
    2 ≤ group.length ∧ ∃ k ∈ next.head?, capacity < Block.framesLength group + k.byteLength

theorem takes_nil : Takes capacity [] := ⟨Nat.zero_le _, nofun⟩

theorem takes_singleton (k : Link) : Takes capacity [k] :=
  ⟨by simp [Block.maxLinks], by simp⟩

theorem Takes.reverse (h : Takes capacity current) : Takes capacity current.reverse := by
  refine ⟨?_, fun hmany => ?_⟩
  · rw [List.length_reverse]
    exact h.length_le
  · rw [Block.framesLength_reverse]
    exact h.framesLength_le (by rwa [List.length_reverse] at hmany)

theorem Takes.cons (h : Takes capacity current) {k : Link}
    (hopen : ¬ (current.length = Block.maxLinks ∨
      (2 ≤ current.length ∧ capacity < Block.framesLength current + k.byteLength))) :
    Takes capacity (k :: current) := by
  rw [not_or, not_and, Nat.not_lt] at hopen
  have hlength := h.length_le
  refine ⟨?_, fun hmany => ?_⟩
  · rw [List.length_cons]
    omega
  · rw [Block.framesLength, Nat.add_comm]
    exact hopen.2 (by rw [List.length_cons] at hmany; omega)

theorem takes_of_mem_groupFrom (hcurrent : Takes capacity current)
    (h : group ∈ groupFrom capacity current (Block.framesLength current) links) :
    Takes capacity group := by
  induction links generalizing current with
  | nil =>
    rw [groupFrom] at h
    split at h
    · simp at h
    · exact List.mem_singleton.mp h ▸ hcurrent.reverse
  | cons k links ih =>
    rw [groupFrom] at h
    split at h
    · rcases List.mem_cons.mp h with rfl | h
      · exact hcurrent.reverse
      · exact ih (takes_singleton k) h
    · next hopen => exact ih (hcurrent.cons hopen) (by rwa [Block.framesLength, Nat.add_comm])

theorem head?_of_mem_head?_groupFrom {used : Nat}
    (h : group ∈ (groupFrom capacity current used links).head?) :
    group.head? = (current.reverse ++ links).head? := by
  have hmem := List.mem_of_mem_head? h
  obtain ⟨groups, hgroups⟩ := List.head?_eq_some_iff.mp h
  rw [← flatten_groupFrom capacity current used, hgroups, List.flatten_cons,
    List.head?_append_of_ne_nil _ (ne_nil_of_mem_groupFrom hmem)]

theorem isChain_groupFrom (capacity : Nat) (current links : List Link) :
    (groupFrom capacity current (Block.framesLength current) links).IsChain (Closes capacity) := by
  induction links generalizing current with
  | nil =>
    rw [groupFrom]
    split
    · exact List.isChain_nil
    · exact List.isChain_singleton _
  | cons k links ih =>
    rw [groupFrom]
    split
    · next hclose =>
      refine List.isChain_cons.mpr ⟨fun next hnext => ?_, ih [k]⟩
      have hhead : next.head? = some k := head?_of_mem_head?_groupFrom hnext
      rw [Closes, List.length_reverse, Block.framesLength_reverse, hhead]
      rcases hclose with hfull | ⟨htwo, hover⟩
      · exact Or.inl hfull
      · exact Or.inr ⟨htwo, k, rfl, hover⟩
    · rw [Nat.add_comm]
      exact ih (k :: current)

/-- Groups that end with two links at least are at most half as many as the links, and one. -/
theorem two_mul_length_le {groups : List (List Link)} (hchain : groups.IsChain (Closes capacity))
    (hne : ∀ group ∈ groups, group ≠ []) : 2 * groups.length ≤ groups.flatten.length + 1 := by
  induction groups with
  | nil => exact Nat.zero_le _
  | cons group groups ih =>
    rw [List.forall_mem_cons] at hne
    obtain ⟨hcloses, hchain⟩ := List.isChain_cons.mp hchain
    rw [List.length_cons, List.flatten_cons, List.length_append]
    have hgroup := List.length_pos_iff.mpr hne.1
    cases groups with
    | nil =>
      simp only [List.length_nil, List.flatten_nil]
      omega
    | cons next groups =>
      have htwo : 2 ≤ group.length := by
        rcases hcloses next rfl with hfull | ⟨htwo, -⟩
        · rw [hfull]
          decide
        · exact htwo
      have hrest := ih hchain hne.2
      omega

theorem takes_of_mem_group (h : group ∈ l.group links) : Takes l.capacity group :=
  takes_of_mem_groupFrom takes_nil h

theorem isChain_group (l : Layout) (links : List Link) :
    (l.group links).IsChain (Closes l.capacity) :=
  isChain_groupFrom l.capacity [] links

theorem length_group_lt (h : 2 ≤ links.length) : (l.group links).length < links.length := by
  have hhalf := two_mul_length_le (l.isChain_group links) fun _ => ne_nil_of_mem_group
  rw [flatten_group] at hhalf
  omega

theorem group_eq_nil_iff : l.group links = [] ↔ links = [] := by
  constructor
  · intro hnil
    rw [← l.flatten_group links, hnil, List.flatten_nil]
  · rintro rfl
    rfl

theorem two_le_length {α : Type} {level : List α} (hmore : ∀ root, level ≠ [root])
    (hne : level ≠ []) : 2 ≤ level.length := by
  have hpos := List.length_pos_iff.mpr hne
  have hone : level.length ≠ 1 := fun h => (List.length_eq_one_iff.mp h).elim hmore
  omega

/-! ## The only grouping -/

/-- Behind a group there is a link that no index block takes in addition to it. -/
theorem Closes.not_takes {next : List Link} (h : Closes capacity group next) {k : Link}
    (hk : next.head? = some k) (more : List Link) : ¬ Takes capacity (group ++ k :: more) := by
  intro htakes
  have hlength := htakes.length_le
  rw [List.length_append, List.length_cons] at hlength
  rcases h with hfull | ⟨htwo, _, hmem, hover⟩
  · omega
  · obtain rfl := Option.mem_unique hmem hk
    have hroom := htakes.framesLength_le (by rw [List.length_append, List.length_cons]; omega)
    rw [Block.framesLength_append, Block.framesLength] at hroom
    omega

/-- No group that an index block takes reaches further into a level than one that is closed. -/
theorem length_le_of_isChain {groups : List (List Link)} {group' rest : List Link}
    (hchain : (group :: groups).IsChain (Closes capacity)) (hne : ∀ next ∈ groups, next ≠ [])
    (htakes : Takes capacity group') (h : group ++ groups.flatten = group' ++ rest) :
    group'.length ≤ group.length := by
  by_contra hlonger
  rw [Nat.not_le] at hlonger
  obtain ⟨more, rfl, hmore⟩ | ⟨more, rfl, -⟩ := List.append_eq_append_iff.mp h
  · cases more with
    | nil => simp at hlonger
    | cons k more =>
      cases groups with
      | nil => simp at hmore
      | cons next groups =>
        have hhead : next.head? = some k := by
          rw [← List.head?_append_of_ne_nil next (hne next List.mem_cons_self),
            ← List.flatten_cons, hmore]
          rfl
        exact hchain.rel.not_takes hhead more htakes
  · rw [List.length_append] at hlonger
    omega

/-- Two ways to group a level, each with groups that an index block takes and that end only where
the next link would not go in, are the same. -/
theorem eq_of_flatten_eq {groups groups' : List (List Link)}
    (hchain : groups.IsChain (Closes capacity)) (hchain' : groups'.IsChain (Closes capacity))
    (htakes : ∀ group ∈ groups, group ≠ [] ∧ Takes capacity group)
    (htakes' : ∀ group ∈ groups', group ≠ [] ∧ Takes capacity group)
    (h : groups.flatten = groups'.flatten) : groups = groups' := by
  induction groups generalizing groups' with
  | nil =>
    refine (List.eq_nil_iff_forall_not_mem.mpr fun group hgroup => ?_).symm
    exact (htakes' group hgroup).1 (List.flatten_eq_nil_iff.mp h.symm group hgroup)
  | cons group groups ih =>
    cases groups' with
    | nil =>
      have hnil := List.flatten_eq_nil_iff.mp h group List.mem_cons_self
      exact absurd hnil (htakes group List.mem_cons_self).1
    | cons group' groups' =>
      rw [List.forall_mem_cons] at htakes htakes'
      rw [List.flatten_cons, List.flatten_cons] at h
      have hlength : group.length = group'.length :=
        Nat.le_antisymm
          (length_le_of_isChain hchain' (fun next hn => (htakes'.2 next hn).1) htakes.1.2 h.symm)
          (length_le_of_isChain hchain (fun next hn => (htakes.2 next hn).1) htakes'.1.2 h)
      obtain ⟨rfl, hrest⟩ := List.append_inj h hlength
      exact congrArg (List.cons group) (ih hchain.tail hchain'.tail htakes.2 htakes'.2 hrest)

/-- Groups of links for index blocks: as many links as fit, but two in any case. -/
structure Packed (l : Layout) (groups : List (List Link)) : Prop where
  one_le : ∀ group ∈ groups, 1 ≤ group.length
  length_le : ∀ group ∈ groups, group.length ≤ 255
  two_le : ∀ group ∈ groups.dropLast, 2 ≤ group.length
  fits : ∀ group ∈ groups, 3 ≤ group.length →
    (group.map fun k => k.frame.length).sum ≤ l.blockSize - 16
  isChain : groups.IsChain fun group next => group.length = 255 ∨
    ∃ k ∈ next.head?,
      l.blockSize - 16 < (group.map fun k => k.frame.length).sum + k.frame.length

theorem closes_iff {next : List Link} : Closes capacity group next ↔ 2 ≤ group.length ∧
    (group.length = 255 ∨ ∃ k ∈ next.head?,
      capacity < (group.map fun k => k.frame.length).sum + k.frame.length) := by
  simp only [Closes, Block.maxLinks, Block.framesLength_eq_sum, Link.length_frame]
  constructor
  · rintro (hfull | ⟨htwo, hover⟩)
    · exact ⟨by omega, Or.inl hfull⟩
    · exact ⟨htwo, Or.inr hover⟩
  · rintro ⟨htwo, hclosed⟩
    exact hclosed.imp_right fun hover => ⟨htwo, hover⟩

theorem packed_iff {groups : List (List Link)} : l.Packed groups ↔
    (∀ group ∈ groups, group ≠ [] ∧ Takes l.capacity group) ∧
      groups.IsChain (Closes l.capacity) := by
  rw [List.IsChain.iff fun _ _ => closes_iff, List.isChain_iff_forall₂, List.forall₂_and_left,
    ← List.isChain_iff_forall₂, capacity, Block.headerLength]
  constructor
  · intro h
    refine ⟨fun group hgroup => ⟨List.ne_nil_of_length_pos (h.one_le group hgroup),
      h.length_le group hgroup, fun hmany => ?_⟩, h.two_le, h.isChain⟩
    rw [Block.framesLength_eq_sum]
    exact h.fits group hgroup hmany
  · rintro ⟨htakes, htwo, hchain⟩
    refine ⟨fun group hgroup => List.length_pos_iff.mpr (htakes group hgroup).1,
      fun group hgroup => (htakes group hgroup).2.length_le, htwo, fun group hgroup hmany => ?_,
      hchain⟩
    rw [← Block.framesLength_eq_sum]
    exact (htakes group hgroup).2.framesLength_le hmany

/-- The groups of a level are the only ones that are packed. -/
theorem group_eq_iff {groups : List (List Link)} :
    l.group links = groups ↔ groups.flatten = links ∧ l.Packed groups := by
  have htakes : ∀ group ∈ l.group links, group ≠ [] ∧ Takes l.capacity group :=
    fun _ hgroup => ⟨ne_nil_of_mem_group hgroup, takes_of_mem_group hgroup⟩
  have hchain := l.isChain_group links
  constructor
  · rintro rfl
    exact ⟨l.flatten_group links, packed_iff.mpr ⟨htakes, hchain⟩⟩
  · rintro ⟨hflat, hpacked⟩
    obtain ⟨htakes', hchain'⟩ := packed_iff.mp hpacked
    exact eq_of_flatten_eq hchain hchain' htakes htakes' ((l.flatten_group links).trans hflat.symm)

end FileTree.Layout

end ContentAddressed
