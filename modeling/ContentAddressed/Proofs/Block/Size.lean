import ContentAddressed.Proofs.Block.RoundTrip
import Mathlib.Order.Bounds.Defs

/-!
# Sizes of frames

A block is built exactly when it has no more links than its header can count, and a frame of the
requested size, or else the smallest one that fits, is within the limit. No number in the header is
cut off: each field reads as what it stands for.
-/

namespace ContentAddressed.Block

/-! ## The smallest frame -/

theorem fittingExponent_le {n e : Nat} (he : 4 ≤ e) (h : n ≤ 2 ^ e) : fittingExponent n ≤ e := by
  rw [fittingExponent]
  split
  · exact he
  · next hlarge =>
    have hlog : (n - 1).log2 < e := (Nat.log2_lt (by omega)).mpr (by omega)
    omega

/-- Among the powers of two that hold the bytes, the frame is the least. -/
theorem isLeast_fittingExponent {n : Nat} (hn : 16 ≤ n) :
    IsLeast {size | (∃ e, size = 2 ^ e) ∧ n ≤ size} (2 ^ fittingExponent n) := by
  refine ⟨⟨⟨_, rfl⟩, le_two_pow_fittingExponent n⟩, ?_⟩
  rintro _ ⟨⟨e, rfl⟩, hle⟩
  have he : 4 ≤ e := by
    by_contra hsmall
    have hpow : 2 ^ e ≤ 2 ^ 3 := Nat.pow_le_pow_right (by omega) (by omega)
    omega
  exact Nat.pow_le_pow_right (by omega) (fittingExponent_le he hle)

theorem framesLength_eq_sum (ls : List Link) :
    framesLength ls = (ls.map fun l => l.frame.length).sum := by
  induction ls with
  | nil => rfl
  | cons l ls ih => rw [framesLength, ih, List.map_cons, List.sum_cons, Link.length_frame]

/-! ## Header fields -/

structure Header where
  magic : Bytes
  exponent : Nat
  linkCount : Nat
  dataOffset : Nat
  dataLength : Nat
  deriving DecidableEq

def field (frame : Bytes) (start width : Nat) : Nat :=
  Bytes.fromLittleEndian ((frame.drop start).take width)

def header (frame : Bytes) : Header :=
  ⟨frame.take 6, field frame 6 1, field frame 7 1, field frame 8 4, field frame 12 4⟩

/-- A field is the number that was written at its place, if its width can say it. -/
theorem field_append (before after : Bytes) {width n : Nat} (h : n < 256 ^ width) :
    field (before ++ (Bytes.littleEndian width n ++ after)) before.length width = n := by
  rw [field, List.drop_left, List.take_left' (Bytes.length_littleEndian width n),
    Bytes.fromLittleEndian_littleEndian, Nat.mod_eq_of_lt h]

theorem head_fields (exponent length : Nat) (ls : List Link) (rest : Bytes) :
    head exponent ls length ++ rest =
      magic ++ ([UInt8.ofNat exponent, UInt8.ofNat ls.length] ++
        (Bytes.littleEndian 4 (headerLength + framesLength ls) ++
          (Bytes.littleEndian 4 length ++ ((ls.map Link.frame).flatten ++ rest)))) := by
  simp [head]

variable {exponent length : Nat} {ls : List Link}

theorem dataOffset_head (hoffset : headerLength + framesLength ls < 2 ^ 32) (rest : Bytes) :
    field (head exponent ls length ++ rest) 8 4 = headerLength + framesLength ls := by
  rw [head_fields, ← List.append_assoc]
  exact field_append (magic ++ [_, _]) _ hoffset

theorem dataLength_head (hlength : length < 2 ^ 32) (rest : Bytes) :
    field (head exponent ls length ++ rest) 12 4 = length := by
  rw [head_fields, ← List.append_assoc, ← List.append_assoc]
  exact field_append (magic ++ [_, _] ++ Bytes.littleEndian 4 _) _ hlength

/-- The header in front of links and content says their true numbers, if they fit its fields. -/
theorem header_head (he : exponent < 256) (hcount : ls.length < 256)
    (hoffset : headerLength + framesLength ls < 2 ^ 32) (hlength : length < 2 ^ 32)
    (rest : Bytes) :
    header (head exponent ls length ++ rest) =
      ⟨magic, exponent, ls.length, headerLength + framesLength ls, length⟩ := by
  rw [header, dataOffset_head hoffset, dataLength_head hlength, head_fields, Header.mk.injEq]
  exact ⟨rfl, field_append magic _ he, field_append (magic ++ [_]) _ hcount, rfl, rfl⟩

/-! ## Building -/

theorem isPowerOfTwo_iff_exists {n : Nat} : isPowerOfTwo n ↔ ∃ e, n = 2 ^ e := by
  rw [isPowerOfTwo_iff]
  refine ⟨fun h => ⟨n.log2, h⟩, ?_⟩
  rintro ⟨e, rfl⟩
  rw [Nat.log2_two_pow]

namespace Draft

variable {d : Draft} {filler : Bytes}

theorem minimumSize_eq (d : Draft) :
    d.minimumSize = 16 + (d.links.map fun l => l.frame.length).sum + d.content.length := by
  rw [minimumSize, linksLength, framesLength_eq_sum, headerLength]

theorem frameSize_eq_ok_iff {size : Nat} :
    d.frameSize = .ok size ↔ d.links.length ≤ 255 ∧ size ≤ 2 ^ 31 ∧
      match d.desiredSize with
      | none => size = 2 ^ fittingExponent d.minimumSize
      | some desired => size = desired ∧ (∃ e, desired = 2 ^ e) ∧ d.minimumSize ≤ desired := by
  by_cases hcount : maxLinks < d.links.length
  · have hmany : ¬ d.links.length ≤ 255 := by simpa [maxLinks] using hcount
    simp [frameSize, hcount, hmany]
  · have hfew : d.links.length ≤ 255 := by simpa [maxLinks] using hcount
    simp only [frameSize, hcount, hfew, if_false, true_and]
    cases d.desiredSize with
    | none =>
      rw [limited_eq_ok_iff, Nat.one_shiftLeft]
      exact and_congr_left fun h => h ▸ Iff.rfl
    | some desired =>
      dsimp only
      have hrefused : (!isPowerOfTwo desired || decide (desired < max d.minimumSize headerLength)) ↔
          ¬ ((∃ e, desired = 2 ^ e) ∧ d.minimumSize ≤ desired) := by
        rw [headerLength, Nat.max_eq_left d.headerLength_le_minimumSize, ← isPowerOfTwo_iff_exists,
          Bool.or_eq_true, Bool.not_eq_true', decide_eq_true_eq, not_and_or, Nat.not_le,
          Bool.not_eq_true]
      by_cases hok : (∃ e, desired = 2 ^ e) ∧ d.minimumSize ≤ desired
      · rw [if_neg (mt hrefused.mp (not_not_intro hok)), limited_eq_ok_iff]
        constructor
        · rintro ⟨hlimit, rfl⟩
          exact ⟨hlimit, rfl, hok⟩
        · rintro ⟨hlimit, rfl, -⟩
          exact ⟨hlimit, rfl⟩
      · rw [if_pos (hrefused.mpr hok)]
        simp [hok]

theorem exists_build_iff_frameSize :
    (∃ b, d.build filler = .ok b) ↔ ∃ size, d.frameSize = .ok size := by
  simp [build, Result.bind_eq_ok_iff, pure, Except.pure]

/-- When a block can be built. The smallest frame is within the limit if what it has to hold is. -/
theorem exists_build_iff :
    (∃ b, d.build filler = .ok b) ↔ d.links.length ≤ 255 ∧
      match d.desiredSize with
      | none => d.minimumSize ≤ 2 ^ 31
      | some size => (∃ e, size = 2 ^ e) ∧ d.minimumSize ≤ size ∧ size ≤ 2 ^ 31 := by
  simp only [exists_build_iff_frameSize, frameSize_eq_ok_iff, exists_and_left]
  refine and_congr_right fun _ => ?_
  cases d.desiredSize with
  | none =>
    rw [exists_eq_right]
    have hleast := isLeast_fittingExponent d.headerLength_le_minimumSize
    exact ⟨hleast.1.2.trans, fun h => hleast.2 ⟨⟨31, rfl⟩, h⟩⟩
  | some desired =>
    constructor
    · rintro ⟨size, hlimit, rfl, hpow, hroom⟩
      exact ⟨hpow, hroom, hlimit⟩
    · rintro ⟨hpow, hroom, hlimit⟩
      exact ⟨desired, hlimit, rfl, hpow, hroom⟩

theorem length_frame_of_desiredSize {b : Block} (h : d.build filler = .ok b) :
    match d.desiredSize with
    | none => IsLeast {size | (∃ e, size = 2 ^ e) ∧ d.minimumSize ≤ size} b.frame.length
    | some size => b.frame.length = size := by
  obtain ⟨size, hsize⟩ := exists_build_iff_frameSize.mp ⟨b, h⟩
  rw [length_frame_of_build hsize h]
  obtain ⟨-, -, hsize⟩ := frameSize_eq_ok_iff.mp hsize
  cases hdesired : d.desiredSize with
  | none =>
    rw [hdesired] at hsize
    exact hsize ▸ isLeast_fittingExponent d.headerLength_le_minimumSize
  | some desired =>
    rw [hdesired] at hsize
    exact hsize.1

/-- The parts of a frame that was built: a header with the true numbers, and behind it the links,
the content, and padding only. -/
theorem exists_header_of_build {b : Block} (h : d.build filler = .ok b) :
    ∃ exponent, b.frame.length = 2 ^ exponent ∧
      header b.frame = ⟨magic, exponent, d.links.length,
        16 + (d.links.map fun l => l.frame.length).sum, d.content.length⟩ ∧
      b.frame.drop 16 = (d.links.map Link.frame).flatten ++
        (d.content ++ Bytes.cycle filler (b.frame.length - d.minimumSize)) := by
  obtain ⟨size, hsize, hb⟩ := Result.bind_eq_ok_iff.mp h
  have hlength := length_frame_of_build hsize h
  obtain ⟨hcount, hroom, e, -, he, rfl⟩ := exists_exponent hsize
  have hsmall : 2 ^ e ≤ 2 ^ 31 := Nat.pow_le_pow_right (by omega) he
  rw [minimumSize, linksLength, headerLength] at hroom
  obtain rfl := (Except.ok.inj hb).symm
  refine ⟨e, hlength, ?_, ?_⟩
  · rw [body_eq, List.append_assoc, header_head (by omega) (by omega) (by rw [headerLength]; omega)
      (by omega), headerLength, framesLength_eq_sum]
  · rw [hlength, body_eq]
    simp [head, magic, List.drop_append]

/-- When a block can be built, and what its frame is. The frame has the size that was asked for, or
the smallest power of two that holds header, links and content; its header says their true numbers;
links, content and padding follow. -/
theorem build_iff_size (d : Draft) (filler : Bytes) :
    d.minimumSize = 16 + (d.links.map fun l => l.frame.length).sum + d.content.length ∧
    ((∃ b, d.build filler = .ok b) ↔ d.links.length ≤ 255 ∧
      match d.desiredSize with
      | none => d.minimumSize ≤ 2 ^ 31
      | some size => (∃ e, size = 2 ^ e) ∧ d.minimumSize ≤ size ∧ size ≤ 2 ^ 31) ∧
    ∀ b, d.build filler = .ok b →
      (match d.desiredSize with
        | none => IsLeast {size | (∃ e, size = 2 ^ e) ∧ d.minimumSize ≤ size} b.frame.length
        | some size => b.frame.length = size) ∧
      ∃ exponent, b.frame.length = 2 ^ exponent ∧
        header b.frame = ⟨magic, exponent, d.links.length,
          16 + (d.links.map fun l => l.frame.length).sum, d.content.length⟩ ∧
        b.frame.drop 16 = (d.links.map Link.frame).flatten ++
          (d.content ++ Bytes.cycle filler (b.frame.length - d.minimumSize)) :=
  ⟨d.minimumSize_eq, exists_build_iff, fun _ h =>
    ⟨length_frame_of_desiredSize h, exists_header_of_build h⟩⟩

/-- Header, link and content fill a frame of 64 bytes to the last one. -/
theorem build_iff_size_full :
    let l : Link := ⟨"a", none⟩
    let d : Draft := { links := [l], content := List.replicate 31 5 }
    ∃ b, d.build [7] = .ok b ∧ b.frame.length = 64 ∧ header b.frame = ⟨magic, 6, 1, 33, 31⟩ ∧
      b.frame.drop 16 = l.frame ++ List.replicate 31 5 := by
  intro l d
  obtain ⟨-, hbuild, hparts⟩ := build_iff_size d [7]
  have hmin : d.minimumSize = 64 := by decide
  obtain ⟨b, hb⟩ := hbuild.mpr ⟨by decide, by rw [hmin]; decide⟩
  obtain ⟨hleast, e, he, hheader, hbytes⟩ := hparts b hb
  rw [hmin] at hleast hbytes
  have hlength : b.frame.length = 64 :=
    Nat.le_antisymm (hleast.2 ⟨⟨6, rfl⟩, Nat.le_refl 64⟩) hleast.1.2
  obtain rfl : e = 6 := Nat.pow_right_injective (Nat.le_refl 2) (he.symm.trans hlength)
  have hpadding : Bytes.cycle [7] (64 - 64) = [] := rfl
  rw [hlength, hpadding, List.append_nil] at hbytes
  exact ⟨b, hb, hlength, hheader.trans (by decide), hbytes.trans (by simp [d])⟩

end Draft

end ContentAddressed.Block
