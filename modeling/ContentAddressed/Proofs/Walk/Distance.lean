import ContentAddressed.Proofs.Walk.Asking
import ContentAddressed.Proofs.Walk.Limited
import ContentAddressed.Proofs.Walk.Ways
import ContentAddressed.Medium.Finite

/-!
# The depth limit is a limit for the shortest way

A walk goes down before it goes aside, so it may first reach a name on a way that is not the
shortest. Two invariants put this right: what is pending or reached has a way of its depth, and no
link that was met is forgotten at the depth it was met at.
-/

namespace ContentAddressed

namespace WalkState

theorem mem_visits_of_visit? {s : WalkState} {name : String} {v : Visit}
    (h : s.visit? name = some v) : v ∈ s.visits ∧ v.name = name :=
  ⟨List.mem_of_find?_eq_some h, by simpa using List.find?_some h⟩

theorem eq_of_visit? {s : WalkState} {u v : Visit} (hs : s.names.Nodup)
    (hv : s.visit? u.name = some v) (hu : u ∈ s.visits) : u = v := by
  obtain ⟨hmem, hname⟩ := mem_visits_of_visit? hv
  exact List.inj_on_of_nodup_map hs hu hmem hname.symm

/-- After a shorter way was found to a name, every other visit is as it was. -/
theorem mem_visits_shorten {s : WalkState} {name : String} {depth : Nat} {u : Visit} :
    u ∈ (s.shorten name depth).visits ↔
      (u ∈ s.visits ∧ u.name ≠ name) ∨
        ∃ v ∈ s.visits, v.name = name ∧ u = { v with depth := depth } := by
  simp only [shorten, List.mem_map]
  constructor
  · rintro ⟨v, hv, rfl⟩
    by_cases hname : v.name = name
    · rw [if_pos hname]
      exact Or.inr ⟨v, hv, hname, rfl⟩
    · rw [if_neg hname]
      exact Or.inl ⟨hv, hname⟩
  · rintro (⟨hu, hname⟩ | ⟨v, hv, hname, rfl⟩)
    · exact ⟨u, hu, if_neg hname⟩
    · exact ⟨v, hv, if_pos hname⟩

theorem contains_result {s : WalkState} {name : String} :
    s.result.contains name ↔ ∃ v ∈ s.visits, v.name = name := by
  simp [WalkResult.contains_iff, result, WalkResult.names]

theorem exists_of_find?_result {s : WalkState} {name : String} {f : Found}
    (h : s.result.find? name = some f) : ∃ v ∈ s.visits, v.name = name ∧ v.found = f := by
  have hmem : (name, f) ∈ s.result.entries := mem_of_lookup h
  simpa [result] using hmem

end WalkState

namespace Walker

variable {σ : Type} {w : Walker σ} {g : LinkGraph} {l k : Link} {depth d : Nat}
  {rest : List (Link × Nat)} {tooDeep : List String} {visits : List ContentAddressed.Visit}
  {store store' : σ} {s : WalkState}

theorem isBeyond_mono (h : depth ≤ d) (hb : w.isBeyond depth) : w.isBeyond d := by
  unfold isBeyond at hb ⊢
  split at hb
  · simp only [decide_eq_true_eq] at hb ⊢
    omega
  · cases hb

section Tracks

/-- What a walk has noted is true of the graph: every depth is the length of a way, and what was
found was read on a way. -/
structure Tracks (w : Walker σ) (g : LinkGraph) (s : WalkState) : Prop where
  pending : ∀ p ∈ s.pending, g.Way p.2 p.1
  tooDeep : ∀ name ∈ s.tooDeep, ∃ n l, g.Way n l ∧ l.target = name
  within : ∀ v ∈ s.visits, ¬ w.isBeyond v.depth
  way : ∀ v ∈ s.visits, ∃ l, g.Way v.depth l ∧ l.target = v.name
  finds : ∀ v ∈ s.visits, g.Finds v.name v.found

theorem tracks_start (w : Walker σ) (g : LinkGraph) : Tracks w g (.start g.root) where
  pending p hp := by
    obtain rfl := List.mem_singleton.mp hp
    exact .root
  tooDeep := by simp [WalkState.start]
  within := by simp [WalkState.start]
  way := by simp [WalkState.start]
  finds := by simp [WalkState.start]

theorem Tracks.follow (hg : g.Uniform) (hs : Tracks w g ⟨(l, depth) :: rest, tooDeep, visits⟩)
    (hsees : w.Sees g store)
    (h : w.Follows l depth ⟨rest, tooDeep, visits⟩ store (.ok s, store')) :
    Tracks w g s ∧ w.Sees g store' := by
  have hl : g.Way depth l := hs.pending (l, depth) (by simp)
  have hrest : ∀ p ∈ rest, g.Way p.2 p.1 := fun p hp => hs.pending p (by simp [hp])
  have hchildren (f : Found) (hf : g.Finds l.target f) :
      ∀ p ∈ f.children (depth + 1) ++ rest, g.Way p.2 p.1 := by
    intro p hp
    rcases List.mem_append.mp hp with hp | hp
    · obtain ⟨k, hk, rfl⟩ := List.mem_map.mp hp
      exact hf.way_succ hg hl rfl hk
    · exact hrest p hp
  cases h with
  | beyond hd =>
    refine ⟨⟨hrest, ?_, hs.within, hs.way, hs.finds⟩, hsees⟩
    intro name hname
    rcases List.mem_cons.mp hname with rfl | hname
    · exact ⟨depth, l, hl, rfl⟩
    · exact hs.tooDeep name hname
  | known hd hv hle => exact ⟨⟨hrest, hs.tooDeep, hs.within, hs.way, hs.finds⟩, hsees⟩
  | enter hd hv hread =>
    obtain ⟨hf, hsees'⟩ := hsees.of_read hread
    have hfinds : g.Finds l.target _ := ⟨depth, l, hl, rfl, hf⟩
    refine ⟨⟨hchildren _ hfinds, hs.tooDeep, ?_, ?_, ?_⟩, hsees'⟩
    · exact List.forall_mem_cons.mpr ⟨hd, hs.within⟩
    · exact List.forall_mem_cons.mpr ⟨⟨l, hl, rfl⟩, hs.way⟩
    · exact List.forall_mem_cons.mpr ⟨hfinds, hs.finds⟩
  | shorten hd hv hlimit hlt =>
    obtain ⟨hmem, hname⟩ := WalkState.mem_visits_of_visit? hv
    have hfinds := hs.finds _ hmem
    rw [hname] at hfinds
    refine ⟨⟨hchildren _ hfinds, hs.tooDeep, ?_, ?_, ?_⟩, hsees⟩ <;> intro u hu <;>
      rcases WalkState.mem_visits_shorten.mp hu with ⟨hu, -⟩ | ⟨v, hv, hname, rfl⟩
    · exact hs.within u hu
    · exact hd
    · exact hs.way u hu
    · exact ⟨l, hl, hname.symm⟩
    · exact hs.finds u hu
    · exact hs.finds v hv

end Tracks

section Covers

/-- A link that was met at some depth is not forgotten: it is pending or its target is reached, at
that depth or above it, or its target is noted as too deep. -/
def Handled (w : Walker σ) (s : WalkState) (k : Link) (d : Nat) : Prop :=
  (∃ d' ≤ d, (k, d') ∈ s.pending) ∨ (∃ v ∈ s.visits, v.name = k.target ∧ v.depth ≤ d) ∨
    (w.isBeyond d ∧ k.target ∈ s.tooDeep)

theorem Handled.mono (h : w.Handled s k depth) (hd : depth ≤ d) : w.Handled s k d := by
  rcases h with ⟨d', hd', hk⟩ | ⟨v, hv, hname, hv'⟩ | ⟨hb, hk⟩
  · exact Or.inl ⟨d', Nat.le_trans hd' hd, hk⟩
  · exact Or.inr (Or.inl ⟨v, hv, hname, Nat.le_trans hv' hd⟩)
  · exact Or.inr (Or.inr ⟨isBeyond_mono hd hb, hk⟩)

/-- A link stays handled if the one that is followed is, and nothing else is lost. -/
theorem Handled.follow (h : w.Handled ⟨(l, depth) :: rest, tooDeep, visits⟩ k d)
    (hl : w.Handled s l depth) (hpending : rest ⊆ s.pending) (hdeep : tooDeep ⊆ s.tooDeep)
    (hvisits : ∀ v ∈ visits, ∃ u ∈ s.visits, u.name = v.name ∧ u.depth ≤ v.depth) :
    w.Handled s k d := by
  rcases h with ⟨d', hd', hk⟩ | ⟨v, hv, hname, hv'⟩ | ⟨hb, hk⟩
  · rcases List.mem_cons.mp hk with hk | hk
    · obtain ⟨rfl, rfl⟩ := Prod.mk.inj hk
      exact hl.mono hd'
    · exact Or.inl ⟨d', hd', hpending hk⟩
  · obtain ⟨u, hu, huname, hu'⟩ := hvisits v hv
    exact Or.inr (Or.inl ⟨u, hu, huname.trans hname, Nat.le_trans hu' hv'⟩)
  · exact Or.inr (Or.inr ⟨hb, hdeep hk⟩)

/-- The root and the links of every block are handled one step below it. -/
structure Covers (w : Walker σ) (g : LinkGraph) (s : WalkState) : Prop where
  nodup : s.names.Nodup
  root : w.Handled s g.root 0
  children : ∀ v ∈ s.visits, ∀ k ∈ v.found.links, w.Handled s k (v.depth + 1)

theorem covers_start (w : Walker σ) (g : LinkGraph) : Covers w g (.start g.root) where
  nodup := List.nodup_nil
  root := Or.inl ⟨0, Nat.le_refl 0, by simp [WalkState.start]⟩
  children := by simp [WalkState.start]

/-- What was covered stays handled after one link, if that link is and nothing is lost. -/
theorem Covers.handled (hs : Covers w g ⟨(l, depth) :: rest, tooDeep, visits⟩)
    (hl : w.Handled s l depth) (hpending : rest ⊆ s.pending) (hdeep : tooDeep ⊆ s.tooDeep)
    (hvisits : ∀ v ∈ visits, ∃ u ∈ s.visits, u.name = v.name ∧ u.depth ≤ v.depth) :
    w.Handled s g.root 0 ∧ ∀ v ∈ visits, ∀ k ∈ v.found.links, w.Handled s k (v.depth + 1) :=
  ⟨hs.root.follow hl hpending hdeep hvisits,
    fun v hv k hk => (hs.children v hv k hk).follow hl hpending hdeep hvisits⟩

theorem handled_children {f : Found} (hk : k ∈ f.links) (tooDeep : List String)
    (visits : List ContentAddressed.Visit) :
    w.Handled ⟨f.children (depth + 1) ++ rest, tooDeep, visits⟩ k (depth + 1) :=
  Or.inl ⟨depth + 1, Nat.le_refl _,
    List.mem_append_left _ (List.mem_map_of_mem (f := fun l => (l, depth + 1)) hk)⟩

theorem Covers.follow {limit : Nat} (hw : w.limit = some limit)
    (hs : Covers w g ⟨(l, depth) :: rest, tooDeep, visits⟩)
    (h : w.Follows l depth ⟨rest, tooDeep, visits⟩ store (.ok s, store')) : Covers w g s := by
  have hself : ∀ v ∈ visits, ∃ u ∈ visits, u.name = v.name ∧ u.depth ≤ v.depth :=
    fun v hv => ⟨v, hv, rfl, Nat.le_refl v.depth⟩
  cases h with
  | beyond hd =>
    have hl : w.Handled ⟨rest, l.target :: tooDeep, visits⟩ l depth :=
      Or.inr (Or.inr ⟨hd, by simp⟩)
    obtain ⟨hroot, hchildren⟩ :=
      hs.handled hl (List.Subset.refl rest) (List.subset_cons_self _ _) hself
    exact ⟨hs.nodup, hroot, hchildren⟩
  | @known v hd hv hle =>
    obtain ⟨hmem, hname⟩ := WalkState.mem_visits_of_visit? hv
    have hl : w.Handled ⟨rest, tooDeep, visits⟩ l depth :=
      Or.inr (Or.inl ⟨v, hmem, hname, by simpa [hw] using hle⟩)
    obtain ⟨hroot, hchildren⟩ :=
      hs.handled hl (List.Subset.refl rest) (List.Subset.refl tooDeep) hself
    exact ⟨hs.nodup, hroot, hchildren⟩
  | @enter f _ hd hv hread =>
    set s' : WalkState := ⟨f.children (depth + 1) ++ rest, tooDeep, ⟨l.target, depth, f⟩ :: visits⟩
    have hl : w.Handled s' l depth := Or.inr (Or.inl ⟨_, List.mem_cons_self, rfl, Nat.le_refl _⟩)
    obtain ⟨hroot, hchildren⟩ :=
      hs.handled hl (List.subset_append_right _ _) (List.Subset.refl tooDeep)
        fun v hv => ⟨v, List.mem_cons_of_mem _ hv, rfl, Nat.le_refl _⟩
    refine ⟨List.nodup_cons.mpr ⟨WalkState.visit?_eq_none_iff.mp hv, hs.nodup⟩, hroot, ?_⟩
    exact List.forall_mem_cons.mpr ⟨fun k hk => handled_children hk _ _, hchildren⟩
  | @shorten v hd hv hlimit hlt =>
    set before : WalkState := ⟨rest, tooDeep, visits⟩
    set s' : WalkState := { before.shorten l.target depth with
      pending := v.found.children (depth + 1) ++ rest }
    obtain ⟨hmem, hname⟩ := WalkState.mem_visits_of_visit? hv
    have hshort : { v with depth := depth } ∈ s'.visits :=
      WalkState.mem_visits_shorten.mpr (Or.inr ⟨v, hmem, hname, rfl⟩)
    have honly : ∀ u ∈ visits, u.name = l.target → u = v := fun u hu huname =>
      WalkState.eq_of_visit? hs.nodup (huname ▸ hv) hu
    have hl : w.Handled s' l depth := Or.inr (Or.inl ⟨_, hshort, hname, Nat.le_refl _⟩)
    have hvisits : ∀ u ∈ visits, ∃ u' ∈ s'.visits, u'.name = u.name ∧ u'.depth ≤ u.depth := by
      intro u hu
      by_cases huname : u.name = l.target
      · obtain rfl := honly u hu huname
        exact ⟨_, hshort, rfl, Nat.le_of_lt hlt⟩
      · exact ⟨u, WalkState.mem_visits_shorten.mpr (Or.inl ⟨hu, huname⟩), rfl, Nat.le_refl _⟩
    obtain ⟨hroot, hchildren⟩ :=
      hs.handled hl (List.subset_append_right _ _) (List.Subset.refl tooDeep) hvisits
    refine ⟨(before.names_shorten l.target depth).symm ▸ hs.nodup, hroot, ?_⟩
    intro u hu k hk
    rcases WalkState.mem_visits_shorten.mp hu with ⟨hu, -⟩ | ⟨v', hv', hname', rfl⟩
    · exact hchildren u hu k hk
    · obtain rfl := honly v' hv' hname'
      exact handled_children hk _ _

end Covers

end Walker

end ContentAddressed
