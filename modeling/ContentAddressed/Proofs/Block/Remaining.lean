import ContentAddressed.Proofs.Block.Size

/-!
# Room in a frame

What a draft says to be left in its frame is what building leaves there: content can be added up to
that many bytes, and one byte more needs a larger frame, or none can be built.
-/

namespace ContentAddressed.Block

/-- More bytes need no larger frame as long as the smallest frame for fewer bytes holds them. -/
theorem two_pow_fittingExponent_eq_iff {m n : Nat} (hm : 16 ≤ m) (hle : m ≤ n) :
    2 ^ fittingExponent n = 2 ^ fittingExponent m ↔ n ≤ 2 ^ fittingExponent m := by
  have hleast := isLeast_fittingExponent (hm.trans hle)
  constructor
  · intro heq
    exact heq ▸ hleast.1.2
  · intro hholds
    refine Nat.le_antisymm (hleast.2 ⟨⟨_, rfl⟩, hholds⟩) ?_
    exact (isLeast_fittingExponent hm).2 ⟨⟨_, rfl⟩, hle.trans hleast.1.2⟩

namespace Draft

variable {d : Draft} {filler : Bytes} {b : Block} {size : Nat}

def append (d : Draft) (more : Bytes) : Draft := { d with content := d.content ++ more }

@[simp] theorem links_append (d : Draft) (more : Bytes) : (d.append more).links = d.links := rfl

@[simp] theorem desiredSize_append (d : Draft) (more : Bytes) :
    (d.append more).desiredSize = d.desiredSize := rfl

theorem minimumSize_append (d : Draft) (more : Bytes) :
    (d.append more).minimumSize = d.minimumSize + more.length := by
  simp only [minimumSize, linksLength, append, List.length_append]
  omega

theorem exists_build_length_iff :
    (∃ b, d.build filler = .ok b ∧ b.frame.length = size) ↔ d.frameSize = .ok size := by
  constructor
  · rintro ⟨b, hb, rfl⟩
    obtain ⟨size, hsize⟩ := exists_build_iff_frameSize.mp ⟨b, hb⟩
    rw [length_frame_of_build hsize hb, hsize]
  · intro hsize
    obtain ⟨b, hb⟩ := exists_build_iff_frameSize.mpr ⟨size, hsize⟩
    exact ⟨b, hb, length_frame_of_build hsize hb⟩

theorem targetSize_of_frameSize (h : d.frameSize = .ok size) : d.targetSize = size := by
  obtain ⟨-, -, hsize⟩ := frameSize_eq_ok_iff.mp h
  rw [targetSize]
  cases hdesired : d.desiredSize with
  | none =>
    rw [hdesired] at hsize
    rw [Option.getD_none, Nat.one_shiftLeft, hsize]
  | some desired =>
    rw [hdesired] at hsize
    rw [Option.getD_some, hsize.1]

theorem minimumSize_add_remaining (h : d.frameSize = .ok size) :
    d.minimumSize + d.remaining = size := by
  obtain ⟨-, hholds, -⟩ := exists_exponent h
  rw [remaining, targetSize_of_frameSize h]
  omega

/-- A frame is kept for more content as long as it holds that, too. -/
theorem frameSize_append_iff (h : d.frameSize = .ok size) (more : Bytes) :
    (d.append more).frameSize = .ok size ↔ d.minimumSize + more.length ≤ size := by
  obtain ⟨hcount, hlimit, hsize⟩ := frameSize_eq_ok_iff.mp h
  rw [frameSize_eq_ok_iff, links_append, desiredSize_append, minimumSize_append]
  cases hdesired : d.desiredSize with
  | none =>
    rw [hdesired] at hsize
    simp only [hcount, hlimit, true_and]
    rw [hsize, eq_comm]
    exact two_pow_fittingExponent_eq_iff d.headerLength_le_minimumSize (Nat.le_add_right _ _)
  | some desired =>
    rw [hdesired] at hsize
    obtain ⟨rfl, hpow, -⟩ := hsize
    simp only [hcount, hlimit, hpow, true_and]

/-- Content can be added to a draft without a larger frame exactly up to what is said to be left,
whichever bytes it is and whatever fills the frame. -/
theorem build_append_iff_le_remaining (h : d.build filler = .ok b) (more filler' : Bytes) :
    (∃ b', (d.append more).build filler' = .ok b' ∧ b'.frame.length = b.frame.length) ↔
      more.length ≤ d.remaining := by
  have hsize : d.frameSize = .ok b.frame.length := exists_build_length_iff.mp ⟨b, h, rfl⟩
  have hparts := minimumSize_add_remaining hsize
  rw [exists_build_length_iff, frameSize_append_iff hsize]
  omega

/-- Twelve bytes are left beside a content of four; the thirteenth needs a larger frame. -/
theorem build_append_iff_le_remaining_twelve :
    let d : Draft := { content := [1, 2, 3, 4] }
    ∃ b, d.build [7] = .ok b ∧
      (∃ b', (d.append (List.replicate 12 5)).build [7] = .ok b' ∧
        b'.frame.length = b.frame.length) ∧
      ¬ ∃ b', (d.append (List.replicate 13 5)).build [7] = .ok b' ∧
        b'.frame.length = b.frame.length := by
  intro d
  obtain ⟨b, hb⟩ : ∃ b, d.build [7] = .ok b := exists_build_iff_frameSize.mpr ⟨32, by decide⟩
  refine ⟨b, hb, (build_append_iff_le_remaining hb _ _).mpr (by decide), ?_⟩
  exact mt (build_append_iff_le_remaining hb _ _).mp (by decide)

end Draft

end ContentAddressed.Block
