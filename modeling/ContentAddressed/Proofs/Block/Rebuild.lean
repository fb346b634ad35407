import ContentAddressed.Proofs.Block.Size

/-!
# Building a read block again

A reader forgets the padding of a frame and nothing else. The links and the content it returns,
built into a frame of the same size, give back every byte in front of the padding. So whether two
frames read as equal blocks is decided by those bytes alone, from the link count on.
-/

namespace ContentAddressed.Block

/-- Where the content of a frame ends: the offset in its header, and the length behind that. -/
def contentEnd (frame : Bytes) : Nat :=
  Bytes.fromLittleEndian ((frame.drop 8).take 4) + Bytes.fromLittleEndian ((frame.drop 12).take 4)

/-- The bytes of a frame from the link count to the end of the content. -/
def filled (frame : Bytes) : Bytes := (frame.take (contentEnd frame)).drop 7

/-- Everything in a frame of these parts that depends neither on its size nor on its padding. -/
def payload (ls : List Link) (content : Bytes) : Bytes :=
  UInt8.ofNat ls.length :: (Bytes.littleEndian 4 (headerLength + framesLength ls) ++
    (Bytes.littleEndian 4 content.length ++ ((ls.map Link.frame).flatten ++ content)))

theorem same_iff {a b : Block} : a.same b ↔ a.links = b.links ∧ a.content = b.content := by
  simp [same]

theorem head_append (exponent : Nat) (ls : List Link) (content : Bytes) :
    head exponent ls content.length ++ content =
      magic ++ (UInt8.ofNat exponent :: payload ls content) := by
  simp [head, payload]

/-- The header says where links and content end, if both numbers fit into their four bytes. -/
theorem contentEnd_head {exponent length : Nat} {ls : List Link}
    (hoffset : headerLength + framesLength ls < 2 ^ 32) (hlength : length < 2 ^ 32)
    (rest : Bytes) :
    contentEnd (head exponent ls length ++ rest) = headerLength + framesLength ls + length :=
  congrArg₂ (· + ·) (dataOffset_head hoffset rest) (dataLength_head hlength rest)

theorem links_eq_of_frames_eq {ls ks : List Link} (hls : ∀ l ∈ ls, l.Valid ∧ l.Canonical)
    (hks : ∀ k ∈ ks, k.Valid ∧ k.Canonical) (hcount : ls.length = ks.length)
    (h : (ls.map Link.frame).flatten = (ks.map Link.frame).flatten) : ls = ks := by
  let bytes := (ls.map Link.frame).flatten
  have hreads {ms : List Link} (hms : ∀ m ∈ ms, m.Valid ∧ m.Canonical)
      (hbytes : (ms.map Link.frame).flatten = bytes) :
      readLinks ms.length ⟨0, bytes⟩ = .ok (ms, ⟨bytes.length, []⟩) :=
    readLinks_eq_ok_iff.mpr ⟨rfl, hms, by simp [hbytes], by simp [hbytes]⟩
  have hboth := hreads hls rfl
  rw [hcount, hreads hks h.symm] at hboth
  exact (congrArg Prod.fst (Except.ok.inj hboth)).symm

/-- The payload determines links and content. -/
theorem payload_inj {ls ks : List Link} {c d : Bytes} (hls : ∀ l ∈ ls, l.Valid ∧ l.Canonical)
    (hks : ∀ k ∈ ks, k.Valid ∧ k.Canonical) (hlcount : ls.length ≤ 255)
    (hkcount : ks.length ≤ 255) (hc : c.length < 2 ^ 32) (hd : d.length < 2 ^ 32)
    (h : payload ls c = payload ks d) : ls = ks ∧ c = d := by
  obtain ⟨hcount, h⟩ := List.cons.inj h
  obtain ⟨-, h⟩ := List.append_inj h (by simp)
  obtain ⟨hlength, h⟩ := List.append_inj h (by simp)
  have hcount : ls.length = ks.length := by
    have hnat := congrArg UInt8.toNat hcount
    simp only [UInt8.toNat_ofNat'] at hnat
    omega
  have hlength : c.length = d.length := by
    have hnat := congrArg Bytes.fromLittleEndian hlength
    simp only [Bytes.fromLittleEndian_littleEndian] at hnat
    omega
  obtain ⟨hframes, hcontent⟩ := List.append_inj' h hlength
  exact ⟨links_eq_of_frames_eq hls hks hcount hframes, hcontent⟩

section Parsed

variable {a : DigestAlgorithm} {f : Bytes} {b : Block}

theorem minimumSize_le_of_parse (h : parse a f = .ok b) :
    headerLength + framesLength b.links + b.content.length ≤ f.length ∧
      ∃ exponent, exponent ≤ 31 ∧ f.length = 2 ^ exponent := by
  obtain ⟨e, padding, -, he, hlength, -, -, hframe, -, -⟩ := parse_eq_ok_iff.mp h
  refine ⟨?_, e, he, hlength⟩
  rw [hframe, List.length_append, length_head, List.length_append]
  omega

theorem contentEnd_of_parse (h : parse a f = .ok b) :
    contentEnd f = headerLength + framesLength b.links + b.content.length ∧
      b.content.length < 2 ^ 32 := by
  obtain ⟨hmin, e, he, hlength⟩ := minimumSize_le_of_parse h
  obtain ⟨e', padding, -, -, -, -, -, hframe, -, -⟩ := parse_eq_ok_iff.mp h
  have hsmall : 2 ^ e ≤ 2 ^ 31 := Nat.pow_le_pow_right (by omega) he
  have hcontent : b.content.length < 2 ^ 32 := by omega
  refine ⟨?_, hcontent⟩
  conv_lhs => rw [hframe]
  exact contentEnd_head (by omega) hcontent _

/-- In front of its padding, a frame is the body of its links and content. -/
theorem take_contentEnd_of_parse (h : parse a f = .ok b) :
    ∃ exponent, 4 ≤ exponent ∧ exponent ≤ 31 ∧ f.length = 2 ^ exponent ∧
      f.take (contentEnd f) = head exponent b.links b.content.length ++ b.content := by
  obtain ⟨e, padding, he, he', hlength, -, -, hframe, -, -⟩ := parse_eq_ok_iff.mp h
  refine ⟨e, he, he', hlength, ?_⟩
  conv_lhs => rw [(contentEnd_of_parse h).1, hframe, ← List.append_assoc]
  exact List.take_left' (by rw [List.length_append, length_head])

theorem filled_of_parse (h : parse a f = .ok b) : filled f = payload b.links b.content := by
  obtain ⟨e, -, -, -, htake⟩ := take_contentEnd_of_parse h
  rw [filled, htake, head_append]
  rfl

/-- Two read blocks are equal exactly when their frames agree from the link count to the end of the
content. -/
theorem same_iff_filled_eq {a' : DigestAlgorithm} {g : Bytes} {c : Block} (h : parse a f = .ok b)
    (h' : parse a' g = .ok c) : b.same c ↔ filled f = filled g := by
  rw [same_iff, filled_of_parse h, filled_of_parse h']
  constructor
  · rintro ⟨hlinks, hcontent⟩
    rw [hlinks, hcontent]
  · intro hpayload
    obtain ⟨-, -, -, -, -, hcount, hlinks, -⟩ := parse_eq_ok_iff.mp h
    obtain ⟨-, -, -, -, -, hcount', hlinks', -⟩ := parse_eq_ok_iff.mp h'
    exact payload_inj hlinks hlinks' hcount hcount' (contentEnd_of_parse h).2
      (contentEnd_of_parse h').2 hpayload

theorem frameSize_of_parse (h : parse a f = .ok b) (digest : DigestAlgorithm) :
    Draft.frameSize ⟨b.links, b.content, some f.length, digest⟩ = .ok f.length := by
  obtain ⟨hmin, e, he, hlength⟩ := minimumSize_le_of_parse h
  obtain ⟨-, -, -, -, -, hcount, -⟩ := parse_eq_ok_iff.mp h
  have hsmall : 2 ^ e ≤ 2 ^ 31 := Nat.pow_le_pow_right (by omega) he
  have hpow : isPowerOfTwo f.length := by
    rw [isPowerOfTwo_iff, hlength, Nat.log2_two_pow]
  have hroom : ¬ f.length < max (Draft.minimumSize ⟨b.links, b.content, some f.length, digest⟩)
      headerLength := by
    simp only [Draft.minimumSize, Draft.linksLength]
    omega
  simp only [Draft.frameSize, maxLinks, hpow, hroom]
  rw [if_neg (by omega), if_neg (by simp)]
  exact Draft.limited_eq_ok_iff.mpr ⟨by omega, rfl⟩

/-- Building the parts of a read block again gives its frame up to the padding. -/
theorem exists_build_of_parse (h : parse a f = .ok b) (digest : DigestAlgorithm)
    (filler : Bytes) :
    ∃ b', Draft.build ⟨b.links, b.content, some f.length, digest⟩ filler = .ok b' ∧
      b'.frame.length = f.length ∧ b'.frame.take (contentEnd f) = f.take (contentEnd f) ∧
      b'.same b := by
  obtain ⟨e, -, -, hlength, htake⟩ := take_contentEnd_of_parse h
  have hsize := frameSize_of_parse h digest
  obtain ⟨b', hb'⟩ : ∃ b', Draft.build ⟨b.links, b.content, some f.length, digest⟩ filler =
      .ok b' := ⟨_, Result.bind_eq_ok_iff.mpr ⟨_, hsize, rfl⟩⟩
  have hframe := Draft.length_frame_of_build hsize hb'
  obtain ⟨hlinks, hcontent, -, -, e', padding, -, -, hlength', hbody⟩ := Draft.frame_of_build hb'
  -- both sizes are powers of two, so the two frames write the same exponent
  obtain rfl : e' = e :=
    Nat.pow_right_injective (by omega) (hlength'.symm.trans (hframe.trans hlength))
  refine ⟨b', hb', hframe, ?_, same_iff.mpr ⟨hlinks, hcontent⟩⟩
  rw [htake, hbody, ← List.append_assoc]
  exact List.take_left' (by rw [(contentEnd_of_parse h).1, List.length_append, length_head])

end Parsed

/-- Reading a frame forgets its padding only: links and content build into the same bytes in front
of it, and two frames read as equal blocks exactly when those bytes agree from the link count on,
whatever the sizes, the padding and the algorithms. -/
theorem parse_forgets_padding {a : DigestAlgorithm} {f : Bytes} {b : Block}
    (h : parse a f = .ok b) :
    contentEnd f ≤ f.length ∧
      (∀ digest filler, ∃ b',
        Draft.build ⟨b.links, b.content, some f.length, digest⟩ filler = .ok b' ∧
          b'.frame.length = f.length ∧ b'.frame.take (contentEnd f) = f.take (contentEnd f) ∧
          b'.same b) ∧
      ∀ a' g c, parse a' g = .ok c → (b.same c ↔ filled f = filled g) :=
  ⟨(contentEnd_of_parse h).1.trans_le (minimumSize_le_of_parse h).1, exists_build_of_parse h,
    fun _ _ _ h' => same_iff_filled_eq h h'⟩

/-- Two frames of different sizes and with different padding, around the same links: a plain one,
one with a key, and one whose key has an odd number of bits. -/
theorem parse_forgets_padding_two_sizes :
    let ls : List Link :=
      [⟨"a", none⟩, ⟨"b", some ⟨"AES", [1, 2], 16, [], 0⟩⟩, ⟨"c", some ⟨"", [1, 2], 13, [], 0⟩⟩]
    let f := head 7 ls 2 ++ ([3, 4] ++ List.replicate 52 7)
    let g := head 8 ls 2 ++ ([3, 4] ++ List.replicate 180 9)
    ∃ b c, parse .sha1 f = .ok b ∧ parse .sha256 g = .ok c ∧ b.same c ∧
      ∃ b', Draft.build ⟨b.links, b.content, some f.length, .sha1⟩ [5] = .ok b' ∧
        b'.frame.length = f.length ∧ b'.frame.take (contentEnd f) = f.take (contentEnd f) ∧
        b'.same b := by
  intro ls f g
  have hls : ∀ l ∈ ls, l.Valid ∧ l.Canonical := by
    simp only [ls, List.forall_mem_cons]
    refine ⟨⟨⟨by decide, by decide, by simp, by decide⟩, by simp [Link.Canonical]⟩,
      ⟨⟨by decide, by decide, ?_, by decide⟩, by simp [Link.Canonical]⟩,
      ⟨⟨by decide, by decide, ?_, by decide⟩, by simp [Link.Canonical]⟩, by simp⟩
    all_goals
      rintro d ⟨⟩
      exact ⟨by decide, by decide, by decide, by decide, by decide⟩
  have hlf : f.length = 2 ^ 7 := by
    simp only [f, List.length_append, length_head, List.length_replicate]
    decide
  have hlg : g.length = 2 ^ 8 := by
    simp only [g, List.length_append, length_head, List.length_replicate]
    decide
  have hf : parse .sha1 f = .ok ⟨ls, [3, 4], f, Fingerprint.of .sha1 f⟩ :=
    parse_eq_ok_iff.mpr ⟨7, _, by decide, by decide, hlf, by decide, hls, rfl, rfl, rfl⟩
  have hg : parse .sha256 g = .ok ⟨ls, [3, 4], g, Fingerprint.of .sha256 g⟩ :=
    parse_eq_ok_iff.mpr ⟨8, _, by decide, by decide, hlg, by decide, hls, rfl, rfl, rfl⟩
  obtain ⟨-, hbuild, hsame⟩ := parse_forgets_padding hf
  refine ⟨_, _, hf, hg, (hsame _ _ _ hg).mpr ?_, hbuild .sha1 [5]⟩
  exact (filled_of_parse hf).trans (filled_of_parse hg).symm

end ContentAddressed.Block
