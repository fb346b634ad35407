import ContentAddressed.Block.Draft
import ContentAddressed.Proofs.Link.Valid

/-!
# Frames of blocks

A frame parses exactly when it is the body of links and content, written with its own size exponent,
followed by padding up to that size. A built block has such a frame, so parsing gives back the links
and the content that went in, whatever the padding.
-/

namespace ContentAddressed.Block

theorem readLinks_eq_ok_iff {n : Nat} {c c' : Cursor} {ls : List Link} :
    readLinks n c = .ok (ls, c') ↔ ls.length = n ∧ (∀ l ∈ ls, l.Valid ∧ l.Canonical) ∧
      c.Passes (ls.map Link.frame).flatten c' := by
  induction n generalizing c c' ls with
  | zero =>
    rw [readLinks, Reader.pure_eq_ok_iff]
    constructor
    · rintro ⟨rfl, rfl⟩
      exact ⟨rfl, by simp, by simp [Cursor.passes_nil]⟩
    · rintro ⟨hlen, -, hp⟩
      rw [List.length_eq_zero_iff] at hlen
      subst hlen
      exact ⟨rfl, Cursor.passes_nil.mp hp⟩
  | succ n ih =>
    simp only [readLinks, Reader.bind_eq_ok_iff, Link.read_eq_ok_iff, ih, Reader.pure_eq_ok_iff]
    constructor
    · rintro ⟨l, d, ⟨hv, hc, hl⟩, ls, e, ⟨rfl, hls, hp⟩, rfl, rfl⟩
      refine ⟨rfl, ?_, hl.trans hp⟩
      rw [List.forall_mem_cons]
      exact ⟨⟨hv, hc⟩, hls⟩
    · rintro ⟨hlen, hls, hp⟩
      obtain ⟨l, ls, rfl⟩ := List.exists_cons_of_length_eq_add_one hlen
      rw [List.forall_mem_cons] at hls
      obtain ⟨d, hl, hp⟩ := Cursor.passes_append.mp hp
      exact ⟨l, d, ⟨hls.1.1, hls.1.2, hl⟩, ls, c', ⟨by simpa using hlen, hls.2, hp⟩, rfl, rfl⟩

def head (exponent : Nat) (ls : List Link) (length : Nat) : Bytes :=
  magic ++ (UInt8.ofNat exponent :: UInt8.ofNat ls.length ::
    (Bytes.littleEndian 4 (headerLength + framesLength ls) ++
      (Bytes.littleEndian 4 length ++ (ls.map Link.frame).flatten)))

theorem length_frames (ls : List Link) :
    (ls.map Link.frame).flatten.length = framesLength ls := by
  induction ls with
  | nil => rfl
  | cons l ls ih => simp [framesLength, Link.length_frame, ih]

theorem length_head (exponent : Nat) (ls : List Link) (length : Nat) :
    (head exponent ls length).length = headerLength + framesLength ls := by
  simp only [head, magic, headerLength, List.length_append, List.length_cons, List.length_nil,
    Bytes.length_littleEndian, length_frames]
  omega

namespace Draft

theorem body_eq (d : Draft) (exponent : Nat) :
    d.body (2 ^ exponent) = head exponent d.links d.content.length ++ d.content := by
  simp [body, head, linksLength, Nat.log2_two_pow]

theorem length_body (d : Draft) (exponent : Nat) :
    (d.body (2 ^ exponent)).length = d.minimumSize := by
  rw [body_eq, List.length_append, length_head]
  rfl

end Draft

/-- The header fields and the links of a frame. -/
theorem readFrame_eq_ok_iff {size offset length : Nat} {frame : Bytes} {c : Cursor}
    {ls : List Link} :
    readFrame size ⟨0, frame⟩ = .ok ((ls, offset, length), c) ↔
      ∃ exponent, 4 ≤ exponent ∧ exponent ≤ 31 ∧ size = 2 ^ exponent ∧ ls.length ≤ 255 ∧
        offset = headerLength + framesLength ls ∧ offset + length ≤ size ∧
        (∀ l ∈ ls, l.Valid ∧ l.Canonical) ∧
        Cursor.Passes ⟨0, frame⟩ (head exponent ls length) c := by
  have hsplit (e n : Nat) (rest : Bytes) : magic ++ (UInt8.ofNat e :: UInt8.ofNat n :: rest) =
      magic ++ (Bytes.littleEndian 1 e ++ (Bytes.littleEndian 1 n ++ rest)) := rfl
  simp only [readFrame, Reader.bind_eq_ok_iff, Reader.magic_eq_ok_iff, Reader.number_eq_ok_iff,
    Reader.guard_eq_ok_iff, readLinks_eq_ok_iff, Reader.position_eq_ok_iff,
    Reader.pure_eq_ok_iff, ne_eq, Decidable.not_not, maxExponent, Nat.one_shiftLeft]
  constructor
  · rintro ⟨_, c₁, hm, e, c₂, ⟨he, h₁⟩, hrange, hsize, n, c₃, ⟨hn, h₂⟩, off, c₄, ⟨hoff, h₃⟩,
      len, c₅, ⟨hlen, h₄⟩, hover, ls', c₆, ⟨rfl, hls, h₅⟩, _, _, ⟨rfl, rfl⟩, hpos, heq, rfl⟩
    simp only [Prod.mk.injEq] at heq
    obtain ⟨rfl, rfl, rfl⟩ := heq
    have hpass := hm.trans (h₁.trans (h₂.trans (h₃.trans (h₄.trans h₅))))
    -- the links start behind the header, so their end is the offset
    have hoffset : offset = headerLength + framesLength ls := by
      have hend := hpass.2
      simp only [magic, List.length_append, List.length_cons, List.length_nil,
        Bytes.length_littleEndian, length_frames] at hend
      simp only [headerLength]
      omega
    refine ⟨e, by omega, by omega, hsize, by omega, hoffset, by omega, hls, ?_⟩
    rw [head, hsplit, ← hoffset]
    exact hpass
  · rintro ⟨e, he, he', rfl, hn, hoffset, hover, hls, hpass⟩
    have hpow : 2 ^ e ≤ 2 ^ 31 := Nat.pow_le_pow_right (by omega) he'
    have hend := hpass.2
    rw [length_head, ← hoffset] at hend
    rw [head, hsplit, ← hoffset] at hpass
    simp only [Cursor.passes_append] at hpass
    obtain ⟨c₁, hm, c₂, h₁, c₃, h₂, c₄, h₃, c₅, h₄, h₅⟩ := hpass
    exact ⟨(), c₁, hm, e, c₂, ⟨by omega, h₁⟩, by omega, rfl, ls.length, c₃, ⟨by omega, h₂⟩,
      offset, c₄, ⟨by omega, h₃⟩, length, c₅, ⟨by omega, h₄⟩, by omega, ls, c,
      ⟨rfl, hls, h₅⟩, _, c, ⟨rfl, rfl⟩, by simpa using hend, rfl, rfl⟩

/-- A frame is accepted exactly when it is a body with its own size exponent, and padding. -/
theorem parse_eq_ok_iff {a : DigestAlgorithm} {frame : Bytes} {b : Block} :
    parse a frame = .ok b ↔ ∃ exponent padding, 4 ≤ exponent ∧ exponent ≤ 31 ∧
      frame.length = 2 ^ exponent ∧ b.links.length ≤ 255 ∧
      (∀ l ∈ b.links, l.Valid ∧ l.Canonical) ∧
      frame = head exponent b.links b.content.length ++ (b.content ++ padding) ∧
      b.frame = frame ∧ b.fingerprint = Fingerprint.of a frame := by
  simp only [parse, Reader.runOn, Result.bind_eq_ok_iff]
  constructor
  · rintro ⟨⟨⟨ls, offset, length⟩, c⟩, hread, hb⟩
    obtain ⟨e, he, he', hsize, hn, hoffset, hover, hls, hpass⟩ := readFrame_eq_ok_iff.mp hread
    have hb := (Except.ok.inj hb).symm
    subst hb
    have hrest : frame = head e ls length ++ c.rest := hpass.1
    have hhead := length_head e ls length
    rw [← hoffset] at hhead
    have hdrop : frame.drop offset = c.rest := by
      rw [hrest, ← hhead]
      exact List.drop_left
    have htake : (c.rest.take length).length = length := by
      have htotal := congrArg List.length hrest
      rw [List.length_append] at htotal
      rw [List.length_take]
      omega
    refine ⟨e, c.rest.drop length, he, he', hsize, hn, hls, ?_, rfl, rfl⟩
    simp only [hdrop, htake, List.take_append_drop]
    exact hrest
  · rintro ⟨e, padding, he, he', hsize, hn, hls, hframe, hbf, hfp⟩
    obtain ⟨ls, content, frame', fp⟩ := b
    simp only at hn hls hframe hbf hfp
    subst hbf hfp
    have hhead := length_head e ls content.length
    have htotal := congrArg List.length hframe
    rw [List.length_append, List.length_append, hhead, hsize] at htotal
    refine ⟨((ls, headerLength + framesLength ls, content.length),
      ⟨headerLength + framesLength ls, content ++ padding⟩), ?_, ?_⟩
    · apply readFrame_eq_ok_iff.mpr
      exact ⟨e, he, he', hsize, hn, rfl, by omega, hls, hframe, by rw [hhead, Nat.zero_add]⟩
    · have hdrop : frame'.drop (headerLength + framesLength ls) =
          content ++ padding := by
        conv_lhs => rw [hframe, ← hhead]
        exact List.drop_left
      simp only [hdrop, List.take_left]
      rfl

def frameOfLinks (ls : List Link) : Bytes :=
  head 6 ls 0 ++ List.replicate (48 - framesLength ls) 0

theorem parse_frameOfLinks {ls : List Link} (hls : ∀ l ∈ ls, l.Valid ∧ l.Canonical)
    (hcount : ls.length ≤ 255) (hlength : framesLength ls ≤ 48) (a : DigestAlgorithm) :
    parse a (frameOfLinks ls) =
      .ok ⟨ls, [], frameOfLinks ls, Fingerprint.of a (frameOfLinks ls)⟩ := by
  refine parse_eq_ok_iff.mpr ⟨6, List.replicate (48 - framesLength ls) 0, by decide, by decide, ?_,
    hcount, hls, rfl, rfl, rfl⟩
  rw [frameOfLinks, List.length_append, length_head, List.length_replicate, headerLength]
  omega

end ContentAddressed.Block
