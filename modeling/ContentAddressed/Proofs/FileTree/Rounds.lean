import ContentAddressed.Proofs.FileTree.Grouping
import ContentAddressed.Proofs.FileTree.Node
import Mathlib.Logic.Relation

/-!
# Rounds of a climb

A climb goes in rounds. Each one puts index blocks above the level reached, one for each group of
its links, and leaves a shorter level. There is no bound on how many rounds there are, and the one
that `climb` has is never met.
-/

namespace ContentAddressed.FileTree.Layout

variable {l : Layout} {fillers : Fillers}

/-- Where a climb stands: the level it has reached, and all nodes built so far. -/
structure Ascent where
  level : List FileNode
  nodes : List FileNode

/-- One round of a climb: a level of several nodes gets a level of index blocks above it. -/
inductive Round (l : Layout) (fillers : Fillers) : Ascent → Ascent → Prop
  | rise {level nodes above : List FileNode} (hmany : 2 ≤ level.length)
      (habove : l.nodes fillers nodes.length (l.indexDrafts (level.map FileNode.link)) =
        .ok above) :
      Round l fillers ⟨level, nodes⟩ ⟨above, nodes ++ above⟩

variable {s s' : Ascent}

theorem Round.length_lt (h : l.Round fillers s s') : s'.level.length < s.level.length := by
  cases h with
  | @rise level nodes above hmany habove =>
    have hfewer : (l.group (level.map FileNode.link)).length < (level.map FileNode.link).length :=
      length_group_lt (by rwa [List.length_map])
    rwa [(makes_of_indexDrafts habove).length_eq, List.length_map] at hfewer

theorem eq_nil_iff_of_indexDrafts {first : Nat} {level above : List FileNode}
    (h : l.nodes fillers first (l.indexDrafts (level.map FileNode.link)) = .ok above) :
    above = [] ↔ level = [] := by
  rw [← List.length_eq_zero_iff, ← (makes_of_indexDrafts h).length_eq, List.length_eq_zero_iff,
    group_eq_nil_iff, List.map_eq_nil_iff]

theorem Round.level_ne_nil (h : l.Round fillers s s') : s'.level ≠ [] := by
  cases h with
  | rise hmany habove =>
    refine mt (eq_nil_iff_of_indexDrafts habove).mp (List.ne_nil_of_length_pos ?_)
    omega

theorem Round.sound_level (h : l.Round fillers s s') (hsound : ∀ n ∈ s.level, n.Sound) :
    ∀ n ∈ s'.level, n.Sound := by
  cases h with
  | rise hmany habove =>
    intro n hn
    obtain ⟨group, hgroup, hmade⟩ := Result.exists_mem_of_mem (makes_of_indexDrafts habove) hn
    have hvalid : ∀ k ∈ group, k.Valid ∧ k.Canonical :=
      fun k hk => FileNode.valid_links hsound k (mem_of_mem_group hgroup hk)
    exact (hmade.sound hvalid).1

variable {root : FileNode} {nodes : List FileNode}

theorem level_ne_nil_of_rounds (h : Relation.ReflTransGen (l.Round fillers) s ⟨[root], nodes⟩) :
    s.level ≠ [] := by
  rcases h.cases_head with rfl | ⟨s', hround, -⟩
  · exact List.cons_ne_nil root []
  · exact List.ne_nil_of_length_pos (Nat.zero_lt_of_lt hround.length_lt)

theorem exists_rounds_of_climb {levels : Nat} {level done : List FileNode} {t : FileTree}
    (hclimb : l.climb fillers levels (level.map FileNode.link) done = .ok t) :
    ∃ root, Relation.ReflTransGen (l.Round fillers) ⟨level, done⟩ ⟨[root], t.nodes⟩ ∧
      t.root = root.link := by
  generalize hlinks : level.map FileNode.link = links at hclimb
  fun_induction climb l fillers levels links done generalizing level with
  | case1 levels root done =>
    obtain ⟨n, rfl, rfl⟩ := List.map_eq_singleton_iff.mp hlinks
    cases hclimb
    exact ⟨n, Relation.ReflTransGen.refl, rfl⟩
  | case2 links done hmore => simp at hclimb
  | case3 levels links done hmore ih =>
    obtain ⟨above, habove, hclimb⟩ := Result.bind_eq_ok_iff.mp hclimb
    obtain ⟨root, hrounds, hroot⟩ := ih above rfl hclimb
    subst hlinks
    have hne : level ≠ [] :=
      mt (eq_nil_iff_of_indexDrafts habove).mpr (level_ne_nil_of_rounds hrounds)
    have hmany : 2 ≤ level.length := by
      simpa using two_le_length hmore (mt List.map_eq_nil_iff.mp hne)
    exact ⟨root, hrounds.head (.rise hmany habove), hroot⟩

/-- Rounds that come to a root are what `climb` goes through, if its bound is as large as the number
of rounds can be. -/
theorem climb_of_rounds {levels : Nat}
    (h : Relation.ReflTransGen (l.Round fillers) s ⟨[root], nodes⟩)
    (hlevels : s.level.length ≤ levels + 1) :
    l.climb fillers levels (s.level.map FileNode.link) s.nodes = .ok ⟨root.link, nodes⟩ := by
  induction h using Relation.ReflTransGen.head_induction_on generalizing levels with
  | refl => cases levels <;> rfl
  | head hround _ ih =>
    have hshorter := hround.length_lt
    cases hround with
    | @rise level nodes above hmany habove =>
      dsimp only at hshorter hlevels ⊢
      obtain ⟨n, rfl⟩ : ∃ n, levels = n + 1 := ⟨levels - 1, by omega⟩
      have hmore : ∀ root, level.map FileNode.link ≠ [root] := by
        intro root hroot
        rw [← List.length_map FileNode.link, hroot] at hmany
        simp at hmany
      have hroom : above.length ≤ n + 1 := by omega
      rw [climb]
      · exact Result.bind_eq_ok_iff.mpr ⟨above, habove, ih hroom⟩
      · exact hmore

end ContentAddressed.FileTree.Layout
