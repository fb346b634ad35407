import ContentAddressed.Proofs.Result
import ContentAddressed.Proofs.Walk.Step

/-! # Assembling what a walk found: one name, then what is below its links -/

namespace ContentAddressed.WalkResult

theorem mem_entries_of_find? {r : WalkResult} {name : String} {f : Found}
    (h : r.find? name = some f) : (name, f) ∈ r.entries :=
  mem_of_lookup h

/-- Off its own path, a block gives its content and then what its links give. -/
theorem contentBelow_of_block {r : WalkResult} {path : List String} {name : String} {b : Block}
    (h : r.find? name = some (.block b)) (hpath : name ∉ path) :
    r.contentBelow path name = (do
      let parts ← b.links.mapM fun l => r.contentBelow (name :: path) l.target
      return b.content ++ parts.flatten) := by
  rw [contentBelow]
  split
  · next hf => simp [h] at hf
  · next hf => simp [h] at hf
  · next b' hf =>
    obtain rfl : b = b' := by simpa [h] using hf
    rw [dif_neg hpath]

theorem contentBelow_eq_ok {r : WalkResult} {path : List String} {name : String} {b : Block}
    {parts : List Bytes} (h : r.find? name = some (.block b)) (hpath : name ∉ path)
    (hparts : List.Forall₂ (fun l part => r.contentBelow (name :: path) l.target = .ok part)
      b.links parts) : r.contentBelow path name = .ok (b.content ++ parts.flatten) := by
  rw [contentBelow_of_block h hpath]
  exact Result.bind_eq_ok_iff.mpr ⟨parts, Result.mapM_eq_ok_iff.mpr hparts, rfl⟩

end ContentAddressed.WalkResult
