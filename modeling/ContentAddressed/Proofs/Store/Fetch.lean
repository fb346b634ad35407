import ContentAddressed.Proofs.Block.Frame
import ContentAddressed.Proofs.Walk.Recursive
import ContentAddressed.Store.Fetch

/-!
# Fetching is the recursive walk

What a fetch without a limit returns over a chain of finite media is what visiting the root comes
to.
-/

namespace ContentAddressed.Store

variable {μ : Type} [Medium μ] [FiniteMedium μ]

theorem explored_of_fetch {s s' : Store μ} {keys : Option Keychain} {root : Link} {r : WalkResult}
    (h : s.fetch keys none root = (.ok r, s')) :
    r.names.Nodup ∧ ∀ l, r.Meets root l → r.contains l.target :=
  Walker.explored_of_fetch rfl h

theorem visit_iff_fetch (s : Store μ) (keys : Option Keychain) (root : Link)
    (out : Outcome (Store μ) WalkResult) :
    (walker keys none).Visit root {} s out ↔ s.fetch keys none root = out := by
  rw [Walker.visit_iff_fetch rfl]
  constructor
  · rintro ⟨_, rfl⟩
    rfl
  · rintro rfl
    exact ⟨s.walker_halts keys none root, rfl⟩

/-- Fetching without a limit has the outcome of the recursive walk and no other one. If it succeeds,
every name is found once, as a block or as closed bytes, and every link of a block is followed. -/
theorem fetch_eq_visit (s : Store μ) (keys : Option Keychain) (root : Link) :
    (∀ out, (walker keys none).Visit root {} s out ↔ s.fetch keys none root = out) ∧
    ∀ r s', s.fetch keys none root = (.ok r, s') →
      (r.blockNames ++ r.lockedNames).Nodup ∧
      (∀ name, r.contains name ↔ name ∈ r.blockNames ++ r.lockedNames) ∧
      ∀ name b, (name, b) ∈ r.blocks → ∀ l ∈ b.links, r.contains l.target := by
  refine ⟨visit_iff_fetch s keys root, fun r s' h => ?_⟩
  obtain ⟨hnodup, hfollowed⟩ := explored_of_fetch h
  refine ⟨r.names_perm.nodup_iff.mpr hnodup, fun name => ?_, fun name b hb l hl => ?_⟩
  · rw [WalkResult.contains_iff, r.names_perm.mem_iff]
  · exact hfollowed l (Or.inr ⟨_, WalkResult.mem_entries_of_mem_blocks hb, hl⟩)

/-- A block under a name that is no fingerprint, linked to itself. -/
theorem fetch_eq_visit_cycle :
    let l : Link := ⟨"a", none⟩
    let frame : Bytes := Block.head 6 [l] 0 ++ List.replicate 31 0
    let s : Store Backing := plain (.memory ⟨[("a", frame)]⟩)
    ∃ r s', (walker none none).Visit l {} s (.ok r, s') ∧
      s.fetch none none l = (.ok r, s') ∧ r.blockNames = ["a"] ∧
      (r.blockNames ++ r.lockedNames).Nodup ∧
      ∀ name b, (name, b) ∈ r.blocks → ∀ l ∈ b.links, r.contains l.target := by
  intro l frame s
  have hvalid : l.Valid := ⟨by decide, by decide, by simp [l], by decide⟩
  have hparse : Block.parse l.digestAlgorithm frame =
      .ok ⟨[l], [], frame, Fingerprint.of l.digestAlgorithm frame⟩ := by
    refine Block.parse_eq_ok_iff.mpr ⟨6, List.replicate 31 0, by decide, by decide, by decide,
      by decide, ?_, rfl, rfl, rfl⟩
    simpa [Link.Canonical, l] using hvalid
  have hread : (walker none none).read l s =
      (.ok (.block ⟨[l], [], frame, Fingerprint.of l.digestAlgorithm frame⟩), s) :=
    Walker.read_of_openBytes? rfl (by decide) (Link.openBytes?_of_parse hparse)
  have hvisit : (walker none none).Visit l {} s (.ok (WalkResult.record {} "a"
      (.block ⟨[l], [], frame, Fingerprint.of l.digestAlgorithm frame⟩)), s) :=
    Walker.Visit.enter (by decide) hread
      (Walker.VisitEach.cons (Walker.Visit.known (WalkResult.contains_iff.mpr (by simp [l])))
        Walker.VisitEach.nil)
  obtain ⟨hvisits, hfound⟩ := fetch_eq_visit s none l
  have hfetch := (hvisits _).mp hvisit
  obtain ⟨hnodup, -, hclosed⟩ := hfound _ s hfetch
  exact ⟨_, s, hvisit, hfetch, rfl, hnodup, hclosed⟩

end ContentAddressed.Store
