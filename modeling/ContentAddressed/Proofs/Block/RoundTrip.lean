import ContentAddressed.Proofs.Block.Frame

/-!
# Building a block and reading it back

A built block has a frame of four to thirty-one bits of size that holds its links and content, each
header field at its true value. Reading that frame, under whatever algorithm, gives the links and
the content that went in.
-/

namespace ContentAddressed.Block

theorem isPowerOfTwo_iff {n : Nat} : isPowerOfTwo n ↔ n = 2 ^ n.log2 := by
  simp [isPowerOfTwo, Nat.one_shiftLeft]

theorem four_le_fittingExponent (n : Nat) : 4 ≤ fittingExponent n := by
  rw [fittingExponent]
  split
  · exact Nat.le_refl 4
  · next h =>
    have hlog : 4 ≤ (n - 1).log2 := (Nat.le_log2 (by omega)).mpr (by omega)
    omega

theorem le_two_pow_fittingExponent (n : Nat) : n ≤ 2 ^ fittingExponent n := by
  rw [fittingExponent]
  split
  · next h => exact h
  · next h =>
    have hlog := @Nat.lt_log2_self (n - 1)
    omega

namespace Draft

variable {d : Draft}

theorem headerLength_le_minimumSize (d : Draft) : 16 ≤ d.minimumSize := by
  simp only [minimumSize, headerLength]
  omega

theorem limited_eq_ok_iff {size n : Nat} :
    frameSize.limited d size = .ok n ↔ size ≤ 2 ^ 31 ∧ n = size := by
  by_cases h : 1 <<< maxExponent < size
  · simp only [frameSize.limited, if_pos h, reduceCtorEq, false_iff]
    rw [maxExponent, Nat.one_shiftLeft] at h
    omega
  · simp only [frameSize.limited, if_neg h, Except.ok.injEq]
    rw [maxExponent, Nat.one_shiftLeft] at h
    omega

/-- The size of a frame is a power of two that holds the block, and that a header can say. -/
theorem exists_exponent {size : Nat} (h : d.frameSize = .ok size) :
    d.links.length ≤ 255 ∧ d.minimumSize ≤ size ∧
      ∃ exponent, 4 ≤ exponent ∧ exponent ≤ 31 ∧ size = 2 ^ exponent := by
  have hbound (e : Nat) (he : 2 ^ e ≤ 2 ^ 31) : e ≤ 31 :=
    (Nat.pow_le_pow_iff_right (by omega)).mp he
  rw [frameSize] at h
  split at h
  · cases h
  · next hcount =>
    rw [maxLinks] at hcount
    split at h
    · next desired hdesired =>
      split at h
      · cases h
      · next hok =>
        obtain ⟨hle, rfl⟩ := limited_eq_ok_iff.mp h
        simp only [Bool.not_eq_true', Bool.or_eq_true, decide_eq_true_eq, not_or,
          Bool.not_eq_false] at hok
        obtain ⟨hpow, hmin⟩ := hok
        have hpow := isPowerOfTwo_iff.mp hpow
        have hheader := d.headerLength_le_minimumSize
        refine ⟨by omega, by omega, size.log2, ?_, ?_, hpow⟩
        · exact (Nat.le_log2 (by omega)).mpr (by omega)
        · exact hbound _ (hpow ▸ hle)
    · obtain ⟨hle, rfl⟩ := limited_eq_ok_iff.mp h
      rw [Nat.one_shiftLeft] at hle ⊢
      exact ⟨by omega, le_two_pow_fittingExponent _, _, four_le_fittingExponent _, hbound _ hle,
        rfl⟩

theorem length_frame_of_build {size : Nat} {filler : Bytes} {b : Block}
    (hsize : d.frameSize = .ok size) (h : d.build filler = .ok b) : b.frame.length = size := by
  obtain ⟨size', hsize', hb⟩ := Result.bind_eq_ok_iff.mp h
  obtain rfl : size = size' := Except.ok.inj (hsize.symm.trans hsize')
  obtain rfl := (Except.ok.inj hb).symm
  obtain ⟨-, hmin, e, -, -, rfl⟩ := exists_exponent hsize
  rw [List.length_append, length_body, Bytes.length_cycle]
  omega

theorem frame_of_build {filler : Bytes} {b : Block} (h : d.build filler = .ok b) :
    b.links = d.links ∧ b.content = d.content ∧
      b.fingerprint = Fingerprint.of d.digest b.frame ∧ d.links.length ≤ 255 ∧
      ∃ exponent padding, 4 ≤ exponent ∧ exponent ≤ 31 ∧ b.frame.length = 2 ^ exponent ∧
        b.frame = head exponent d.links d.content.length ++ (d.content ++ padding) := by
  obtain ⟨size, hsize, hb⟩ := Result.bind_eq_ok_iff.mp h
  have hb := (Except.ok.inj hb).symm
  subst hb
  obtain ⟨hcount, hmin, e, he, he', rfl⟩ := exists_exponent hsize
  refine ⟨rfl, rfl, rfl, hcount, e, Bytes.cycle filler (2 ^ e - d.minimumSize), he, he',
    length_frame_of_build hsize h, ?_⟩
  rw [body_eq, List.append_assoc]

/-- A built block whose links are valid and canonical reads back with the same parts. -/
theorem parse_of_build {filler : Bytes} {b : Block}
    (hl : ∀ l ∈ d.links, l.Valid ∧ l.Canonical) (h : d.build filler = .ok b)
    (a : DigestAlgorithm) :
    parse a b.frame = .ok ⟨d.links, d.content, b.frame, Fingerprint.of a b.frame⟩ := by
  obtain ⟨-, -, -, hcount, e, padding, he, he', hlen, hframe⟩ := frame_of_build h
  exact parse_eq_ok_iff.mpr ⟨e, padding, he, he', hlen, hcount, hl, hframe, rfl, rfl⟩

/-- Reading a built frame gives an equal block, and the same name under the same algorithm. -/
theorem parse_build_frame {filler : Bytes} {b : Block} (hl : ∀ l ∈ d.links, l.Sourced)
    (h : d.build filler = .ok b) (a : DigestAlgorithm) :
    ∃ p, parse a b.frame = .ok p ∧ p.same b ∧ p.links = d.links ∧ b.links = d.links ∧
      p.content = d.content ∧ b.content = d.content ∧ p.frame = b.frame ∧
      (a = d.digest → p.name = b.name) := by
  obtain ⟨hlinks, hcontent, hname, -⟩ := frame_of_build h
  have hparse := parse_of_build (fun l hm => ⟨(hl l hm).valid, (hl l hm).canonical⟩) h a
  refine ⟨_, hparse, ?_, rfl, hlinks, rfl, hcontent, rfl, ?_⟩
  · simp [same, hlinks, hcontent]
  · rintro rfl
    rw [name, name, hname]

/-- One link with a key, one with an odd number of bits, and padding to read past. -/
theorem parse_build_frame_two_links :
    let keyed : Link := ⟨"a", some ⟨"AES", [1, 2], 16, [], 0⟩⟩
    let odd : Link := ⟨"b", some ⟨"", [1, 2], 13, [], 0⟩⟩
    let d : Draft := { links := [keyed, odd], content := [3, 4, 5], digest := .sha1 }
    (∀ l ∈ d.links, l.Sourced) ∧ ∃ b, d.build [7] = .ok b ∧
      ∃ p, parse .sha1 b.frame = .ok p ∧ p.same b ∧ p.links = d.links ∧ b.links = d.links ∧
        p.content = d.content ∧ b.content = d.content ∧ p.frame = b.frame ∧
        (DigestAlgorithm.sha1 = d.digest → p.name = b.name) := by
  intro keyed odd d
  have hkeyed : keyed.Sourced :=
    .built (d := ⟨some "a", some ⟨"AES", [1, 2], []⟩⟩) rfl (by simp)
  have hparsed : Link.parse odd.frame = .ok odd := by
    refine Link.parse_eq_ok_iff.mpr ⟨⟨by decide, by decide, ?_, by decide⟩, ?_, rfl⟩
    · rintro e ⟨⟩
      exact ⟨by decide, by decide, by decide, by decide, by decide⟩
    · rintro e ⟨⟩
      simp
  have hodd : odd.Sourced := .parsed hparsed
  have hl : ∀ l ∈ d.links, l.Sourced := by
    intro l hmem
    simp only [d, List.mem_cons, List.not_mem_nil, or_false] at hmem
    rcases hmem with rfl | rfl
    · exact hkeyed
    · exact hodd
  have hsize : d.frameSize = .ok 64 := by decide
  obtain ⟨b, hb⟩ : ∃ b, d.build [7] = .ok b := ⟨_, Result.bind_eq_ok_iff.mpr ⟨64, hsize, rfl⟩⟩
  exact ⟨hl, b, hb, parse_build_frame hl hb .sha1⟩

end Draft

end ContentAddressed.Block
