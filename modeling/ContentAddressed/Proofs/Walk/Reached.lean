import ContentAddressed.Proofs.Walk.Distance
import Mathlib.Logic.Relation

/-!
# The links between the names that a walk reached

With or without a limit, a walk that succeeds has reached the target of every link that it met, and
from the root its own links lead to every name that it reached.
-/

namespace ContentAddressed

namespace WalkResult

def LinksTo (r : WalkResult) (a b : String) : Prop :=
  ∃ block, r.block? a = some block ∧ ∃ l ∈ block.links, l.target = b

/-- One name is reached from another through blocks of the result, by any number of links. -/
def Reaches (r : WalkResult) : String → String → Prop := Relation.ReflTransGen r.LinksTo

variable {r : WalkResult} {a b name : String} {f : Found}

theorem block?_eq_some_iff {block : Block} :
    r.block? name = some block ↔ r.find? name = some (.block block) := by
  rw [block?, Option.bind_eq_some_iff]
  constructor
  · rintro ⟨f, hf, hblock⟩
    cases f with
    | block b => rw [hf, ← Option.some.inj hblock]
    | locked v => cases hblock
  · intro h
    exact ⟨_, h, rfl⟩

theorem linksTo_of_find? (h : r.find? name = some f) {l : Link} (hl : l ∈ f.links) :
    r.LinksTo name l.target := by
  cases f with
  | block b => exact ⟨b, block?_eq_some_iff.mpr h, l, hl, rfl⟩
  | locked v => cases hl

/-- Where no name comes twice, every entry is found under its name. -/
theorem find?_of_mem (hr : r.names.Nodup) (h : (name, f) ∈ r.entries) :
    r.find? name = some f := by
  obtain ⟨before, after, he⟩ := List.append_of_mem h
  refine List.lookup_eq_some_iff.mpr ⟨before, after, he, fun e hmem => ?_⟩
  rw [names, he, List.map_append, List.nodup_append] at hr
  exact bne_iff_ne.mpr (hr.2.2 e.1 (List.mem_map_of_mem hmem) name (by simp)).symm

theorem find?_record_of_find? {g : Found} (h : r.find? a = some f) :
    (r.record name g).find? a = some f := by
  rw [find?] at h
  simp [find?, record, List.lookup_append, h]

theorem find?_record_self (h : ¬ r.contains name) : (r.record name f).find? name = some f := by
  have hnone : r.entries.lookup name = none := by
    rwa [contains, find?, Option.not_isSome_iff_eq_none] at h
  simp [find?, record, List.lookup_append, hnone]

theorem LinksTo.record (h : r.LinksTo a b) : (r.record name f).LinksTo a b := by
  obtain ⟨block, hblock, hl⟩ := h
  exact ⟨block, block?_eq_some_iff.mpr (find?_record_of_find? (block?_eq_some_iff.mp hblock)), hl⟩

theorem Reaches.record (h : r.Reaches a b) : (r.record name f).Reaches a b :=
  Relation.ReflTransGen.mono (fun _ _ => LinksTo.record) _ _ h

theorem LinksTo.contains (h : r.LinksTo a b) : r.contains a := by
  obtain ⟨block, hblock, -⟩ := h
  rw [WalkResult.contains, block?_eq_some_iff.mp hblock]
  rfl

end WalkResult

namespace WalkState

/-- How short the way to a name is does not matter to the result. -/
@[simp] theorem result_shorten (s : WalkState) (name : String) (depth : Nat) :
    (s.shorten name depth).result = s.result := by
  simp only [result, shorten, ← List.map_reverse, List.map_map]
  congr 1
  apply List.map_congr_left
  intro v _
  simp only [Function.comp_apply]
  split <;> rfl

theorem find?_result_of_visit? {s : WalkState} {name : String} {v : Visit}
    (hs : s.result.names.Nodup) (h : s.visit? name = some v) :
    s.result.find? name = some v.found := by
  obtain ⟨hmem, rfl⟩ := mem_visits_of_visit? h
  exact WalkResult.find?_of_mem hs (by simpa [result] using ⟨v, hmem, rfl, rfl⟩)

end WalkState

namespace Walker

variable {σ : Type} {w : Walker σ} {root : Link} {store store' : σ} {r : WalkResult}

/-- The links of a state lead from the root to every name that was reached or is still to follow. -/
structure Joined (root : Link) (s : WalkState) : Prop where
  nodup : s.result.names.Nodup
  reached : ∀ name ∈ s.result.names, s.result.Reaches root.target name
  pending : ∀ p ∈ s.pending, s.result.Reaches root.target p.1.target

theorem joined_start (root : Link) : Joined root (.start root) where
  nodup := List.nodup_nil
  reached _ h := by cases h
  pending p hp := by
    obtain rfl := List.mem_singleton.mp hp
    exact .refl

theorem reaches_children {name : String} {f : Found} (hname : r.Reaches root.target name)
    (hf : r.find? name = some f) {depth : Nat} :
    ∀ p ∈ f.children depth, r.Reaches root.target p.1.target := by
  intro p hp
  obtain ⟨l, hl, rfl⟩ := List.mem_map.mp hp
  exact hname.tail (WalkResult.linksTo_of_find? hf hl)

theorem keeps_joined (w : Walker σ) (root : Link) : w.Keeps fun s _ => Joined root s := by
  intro l depth rest tooDeep visits store store' s hs hfollows
  have hresult : WalkState.result ⟨(l, depth) :: rest, tooDeep, visits⟩ =
      WalkState.result ⟨rest, tooDeep, visits⟩ := rfl
  obtain ⟨hnodup, hreached, hpending⟩ := hs
  obtain ⟨hl, hrest⟩ := List.forall_mem_cons.mp hpending
  rw [hresult] at hnodup hreached hl hrest
  cases hfollows with
  | beyond => exact ⟨hnodup, hreached, hrest⟩
  | known => exact ⟨hnodup, hreached, hrest⟩
  | @enter f _ hd hv hread =>
    have hnew : ¬ (WalkState.result ⟨rest, tooDeep, visits⟩).contains l.target := by
      rw [← WalkState.visit?_isSome, hv]
      simp
    have hrecord := WalkState.result_cons rest (f.children (depth + 1) ++ rest) tooDeep tooDeep
      ⟨l.target, depth, f⟩ visits
    refine ⟨?_, ?_, ?_⟩ <;> rw [hrecord]
    · rw [WalkResult.names_record, List.nodup_append_comm, List.singleton_append, List.nodup_cons,
        ← WalkResult.contains_iff]
      exact ⟨hnew, hnodup⟩
    · rw [WalkResult.names_record, List.forall_mem_append, List.forall_mem_singleton]
      exact ⟨fun name hname => (hreached name hname).record, hl.record⟩
    · rw [List.forall_mem_append]
      exact ⟨reaches_children hl.record (WalkResult.find?_record_self hnew),
        fun p hp => (hrest p hp).record⟩
  | @shorten v hd hv hlimit hlt =>
    have hsame := WalkState.result_shorten ⟨rest, tooDeep, visits⟩ l.target depth
    refine ⟨hsame ▸ hnodup, hsame ▸ hreached, ?_⟩
    rw [List.forall_mem_append]
    have hchildren : ∀ p ∈ v.found.children (depth + 1), _ :=
      reaches_children hl (WalkState.find?_result_of_visit? hnodup hv)
    exact ⟨hsame ▸ hchildren, hsame ▸ hrest⟩

/-- Without its too deep names, a state that covers the links it met has reached their targets. -/
theorem Covers.followed {g : LinkGraph} {tooDeep : List String}
    {visits : List ContentAddressed.Visit} (hs : Covers w g ⟨[], tooDeep, visits⟩)
    (hall : ∀ name ∈ tooDeep, (WalkState.result ⟨[], tooDeep, visits⟩).contains name) {l : Link}
    (hl : (WalkState.result ⟨[], tooDeep, visits⟩).Meets g.root l) :
    (WalkState.result ⟨[], tooDeep, visits⟩).contains l.target := by
  have hhandled {k : Link} {d : Nat} (hk : w.Handled ⟨[], tooDeep, visits⟩ k d) :
      (WalkState.result ⟨[], tooDeep, visits⟩).contains k.target := by
    rcases hk with ⟨d', -, hpending⟩ | ⟨v, hv, hname, -⟩ | ⟨-, hdeep⟩
    · cases hpending
    · exact WalkState.contains_result.mpr ⟨v, hv, hname⟩
    · exact hall _ hdeep
  rcases hl with rfl | ⟨e, he, hl⟩
  · exact hhandled hs.root
  · obtain ⟨v, hv, rfl⟩ : ∃ v ∈ visits, (v.name, v.found) = e := by
      simpa [WalkState.result] using he
    exact hhandled (hs.children v hv l hl)

theorem followed_of_fetch {hs : w.Halts (.start root) store}
    (h : w.fetch root store hs = (.ok r, store')) : ∀ l, r.Meets root l → r.contains l.target := by
  cases hlimit : w.limit with
  | none => exact (explored_of_fetch hlimit h).2
  | some limit =>
    -- its root is all that covering needs of a graph
    let g : LinkGraph := ⟨fun name => .error (.noSuchBlock name), none, root⟩
    have hkeeps : w.Keeps fun s _ => Covers w g s := fun _ _ _ _ _ _ _ _ => Covers.follow hlimit
    have hstops := fetch_stops hkeeps (covers_start w g) hs
    rw [h] at hstops
    obtain ⟨tooDeep, visits, hcovers, hfinish⟩ := hstops.exists_of_ok
    obtain ⟨rfl, hdeep⟩ := eq_result_of_finish hfinish
    exact fun l => hcovers.followed (hdeep (by simp [hlimit]))

/-- A walk that succeeds has every name once, and is led from the root to each of them by the links
of the blocks that it returns. -/
theorem joined_of_fetch {hs : w.Halts (.start root) store}
    (h : w.fetch root store hs = (.ok r, store')) :
    r.names.Nodup ∧ ∀ name ∈ r.names, r.Reaches root.target name := by
  have hstops := fetch_stops (keeps_joined w root) (joined_start root) hs
  rw [h] at hstops
  obtain ⟨tooDeep, visits, hjoined, hfinish⟩ := hstops.exists_of_ok
  obtain ⟨rfl, -⟩ := eq_result_of_finish hfinish
  exact ⟨hjoined.nodup, hjoined.reached⟩

end Walker

end ContentAddressed
