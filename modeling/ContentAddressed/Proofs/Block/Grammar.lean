import ContentAddressed.Proofs.Block.Frame
import ContentAddressed.Proofs.Link.Grammar

/-!
# The grammar of frames

A spelling is a choice of the parts of a frame: size exponent, frames of links, content and padding.
A byte string parses exactly when it has a spelling, the spelling is then the only one, and the
block is what it spells. Any other byte string is refused as malformed.
-/

namespace ContentAddressed

namespace Link

/-- Byte strings that parse as some links are the frames of these links. -/
theorem forall₂_parse_iff {frames : List Bytes} {ls : List Link} :
    List.Forall₂ (fun f l => parse f = .ok l) frames ls ↔
      (∀ l ∈ ls, l.Valid ∧ l.Canonical) ∧ frames = ls.map frame := by
  induction ls generalizing frames with
  | nil => simp
  | cons l ls ih =>
    simp only [List.forall₂_cons_right_iff, ih, List.forall_mem_cons, List.map_cons]
    constructor
    · rintro ⟨f, fs, hf, ⟨hls, rfl⟩, rfl⟩
      obtain ⟨hv, hc, rfl⟩ := parse_eq_ok_iff.mp hf
      exact ⟨⟨⟨hv, hc⟩, hls⟩, rfl⟩
    · rintro ⟨⟨⟨hv, hc⟩, hls⟩, rfl⟩
      exact ⟨l.frame, ls.map frame, parse_eq_ok_iff.mpr ⟨hv, hc, rfl⟩, ⟨hls, rfl⟩, rfl⟩

end Link

namespace Block

theorem blamesBytes_readLinks (n : Nat) : Reader.BlamesBytes (readLinks n) := by
  induction n with
  | zero => exact Reader.BlamesBytes.pure []
  | succ n ih =>
    exact Link.blamesBytes_read.bind fun l => ih.bind fun ls => Reader.BlamesBytes.pure (l :: ls)

theorem blamesBytes_readFrame (size : Nat) : Reader.BlamesBytes (readFrame size) := by
  refine (Reader.blamesBytes_magic _ _).bind fun _ => ?_
  refine (Reader.blamesBytes_number _ _).bind fun exponent => ?_
  refine Reader.BlamesBytes.guard _ _ (Reader.BlamesBytes.guard _ _ ?_)
  refine (Reader.blamesBytes_number _ _).bind fun count => ?_
  refine (Reader.blamesBytes_number _ _).bind fun offset => ?_
  refine (Reader.blamesBytes_number _ _).bind fun length => Reader.BlamesBytes.guard _ _ ?_
  refine (blamesBytes_readLinks _).bind fun links => ?_
  refine Reader.blamesBytes_position.bind fun position => Reader.BlamesBytes.guard _ _ ?_
  exact Reader.BlamesBytes.pure _

theorem exists_format_of_parse {a : DigestAlgorithm} {frame : Bytes} {e : Error}
    (h : parse a frame = .error e) : ∃ cause, e = .format cause := by
  cases hread : readFrame frame.length ⟨0, frame⟩ with
  | error e' =>
    obtain rfl : e' = e := by
      simpa [parse, Reader.runOn, StateT.run, hread, bind, Except.bind] using h
    exact blamesBytes_readFrame _ _ _ hread
  | ok p => simp [parse, Reader.runOn, StateT.run, hread, bind, Except.bind, pure, Except.pure] at h

structure Spelling where
  exponent : Nat
  /-- The frames of the links. -/
  links : List Bytes
  content : Bytes
  padding : Bytes

namespace Spelling

def bytes (s : Spelling) : Bytes :=
  magic ++ [UInt8.ofNat s.exponent, UInt8.ofNat s.links.length] ++
    Bytes.littleEndian 4 (headerLength + s.links.flatten.length) ++
    Bytes.littleEndian 4 s.content.length ++ s.links.flatten ++ s.content ++ s.padding

/-- What makes the parts a frame. -/
structure Spells (s : Spelling) (frame : Bytes) : Prop where
  four_le : 4 ≤ s.exponent
  exponent_le : s.exponent ≤ 31
  count_le : s.links.length ≤ 255
  links_parse : ∀ f ∈ s.links, ∃ l, Link.parse f = .ok l
  bytes_eq : s.bytes = frame
  length_eq : frame.length = 2 ^ s.exponent

theorem bytes_eq_head (exponent : Nat) (ls : List Link) (content padding : Bytes) :
    bytes ⟨exponent, ls.map Link.frame, content, padding⟩ =
      head exponent ls content.length ++ (content ++ padding) := by
  simp only [bytes, head, length_frames, List.length_map, List.append_assoc, List.cons_append,
    List.nil_append]

structure Reads (s : Spelling) (b : Block) : Prop where
  links : List.Forall₂ (fun f l => Link.parse f = .ok l) s.links b.links
  content : b.content = s.content

theorem parse_eq_ok_iff_reads {a : DigestAlgorithm} {frame : Bytes} {b : Block} :
    parse a frame = .ok b ↔ ∃ s : Spelling, s.Spells frame ∧ s.Reads b ∧ b.frame = frame ∧
      b.fingerprint = Fingerprint.of a frame := by
  rw [parse_eq_ok_iff]
  constructor
  · rintro ⟨e, padding, he, he', hlen, hcount, hls, hframe, hb, hfp⟩
    have hreads := Link.forall₂_parse_iff.mpr ⟨hls, rfl⟩
    refine ⟨⟨e, b.links.map Link.frame, b.content, padding⟩,
      ⟨he, he', by simpa using hcount, ?_, ?_, hlen⟩, ⟨hreads, rfl⟩, hb, hfp⟩
    · exact fun f hf => Result.exists_of_mem hreads hf
    · rw [bytes_eq_head, hframe]
  · rintro ⟨⟨e, fs, content, padding⟩, hs, ⟨hlinks, rfl⟩, hb, hfp⟩
    obtain ⟨hls, rfl⟩ := Link.forall₂_parse_iff.mp hlinks
    have hframe := hs.bytes_eq
    rw [bytes_eq_head] at hframe
    exact ⟨e, padding, hs.four_le, hs.exponent_le, hs.length_eq, by simpa using hs.count_le, hls,
      hframe.symm, hb, hfp⟩

theorem Spells.exists_reads {s : Spelling} {frame : Bytes} (h : s.Spells frame)
    (a : DigestAlgorithm) : ∃ b, parse a frame = .ok b ∧ s.Reads b := by
  obtain ⟨ls, hls⟩ := Result.exists_forall₂ h.links_parse
  have hreads : s.Reads ⟨ls, s.content, frame, Fingerprint.of a frame⟩ := ⟨hls, rfl⟩
  exact ⟨_, parse_eq_ok_iff_reads.mpr ⟨s, h, hreads, rfl, rfl⟩, hreads⟩

/-- Two spellings of one frame that read as one block are the same. -/
theorem Spells.eq_of_reads {s t : Spelling} {frame : Bytes} {b : Block} (hs : s.Spells frame)
    (ht : t.Spells frame) (hsb : s.Reads b) (htb : t.Reads b) : s = t := by
  have hexp : s.exponent = t.exponent :=
    Nat.pow_right_injective (Nat.le_refl 2) (hs.length_eq.symm.trans ht.length_eq)
  have hlinks : s.links = t.links := by
    rw [(Link.forall₂_parse_iff.mp hsb.links).2, (Link.forall₂_parse_iff.mp htb.links).2]
  have hcontent : s.content = t.content := hsb.content.symm.trans htb.content
  have hbytes := hs.bytes_eq.trans ht.bytes_eq.symm
  obtain ⟨e, fs, content, padding⟩ := s
  obtain ⟨e', fs', content', padding'⟩ := t
  simp only at hexp hlinks hcontent
  subst hexp hlinks hcontent
  simp only [bytes, List.append_cancel_left_eq] at hbytes
  rw [hbytes]

end Spelling

open Spelling in
/-- Parsing accepts exactly the byte strings that have a spelling. There is only one, the block has
the links, the content and the name that it says, and all other byte strings are malformed. -/
theorem parse_iff_spelled (a : DigestAlgorithm) (frame : Bytes) :
    ((∃ b, parse a frame = .ok b) ↔ ∃ s : Spelling, s.Spells frame) ∧
    (∀ s t : Spelling, s.Spells frame → t.Spells frame → s = t) ∧
    (∀ (s : Spelling) (b : Block), s.Spells frame → parse a frame = .ok b →
      List.Forall₂ (fun f l => Link.parse f = .ok l) s.links b.links ∧ b.content = s.content ∧
        b.frame = frame ∧ b.name = (Fingerprint.of a frame).encode) ∧
    ((¬ ∃ s : Spelling, s.Spells frame) → ∃ cause, parse a frame = .error (.format cause)) := by
  have hreads (s : Spelling) (b : Block) (hs : s.Spells frame) (hb : parse a frame = .ok b) :
      s.Reads b := by
    obtain ⟨b', hb', hsb'⟩ := hs.exists_reads a
    exact Except.ok.inj (hb'.symm.trans hb) ▸ hsb'
  have hspelled {b : Block} (hb : parse a frame = .ok b) : ∃ s : Spelling, s.Spells frame :=
    (parse_eq_ok_iff_reads.mp hb).imp fun _ h => h.1
  refine ⟨⟨fun ⟨b, hb⟩ => hspelled hb, ?_⟩, ?_, ?_, ?_⟩
  · rintro ⟨s, hs⟩
    exact (hs.exists_reads a).imp fun _ h => h.1
  · intro s t hs ht
    obtain ⟨b, hb, hsb⟩ := hs.exists_reads a
    exact hs.eq_of_reads ht hsb (hreads t b ht hb)
  · intro s b hs hb
    obtain ⟨-, -, -, hframe, hname⟩ := parse_eq_ok_iff_reads.mp hb
    have hsb := hreads s b hs hb
    exact ⟨hsb.links, hsb.content, hframe, by rw [name, hname]⟩
  · intro hnone
    cases hb : parse a frame with
    | ok b => exact absurd (hspelled hb) hnone
    | error e =>
      obtain ⟨cause, rfl⟩ := exists_format_of_parse hb
      exact ⟨cause, rfl⟩

/-- A frame with a link, content and padding has a spelling, and none without its last byte. -/
theorem parse_iff_spelled_cut :
    let l : Link := ⟨"a", some ⟨"", [1, 2], 13, [], 0⟩⟩
    let s : Spelling := ⟨6, [l.frame], [3, 4, 5], List.replicate 26 7⟩
    (∃ b, parse .sha1 s.bytes = .ok b ∧
      List.Forall₂ (fun f l => Link.parse f = .ok l) s.links b.links ∧ b.content = [3, 4, 5]) ∧
    ∃ cause, parse .sha1 s.bytes.dropLast = .error (.format cause) := by
  intro l s
  have hparse : Link.parse l.frame = .ok l := by
    refine Link.parse_eq_ok_iff.mpr ⟨⟨by decide, by decide, ?_, by decide⟩, ?_, rfl⟩
    · rintro e ⟨⟩
      exact ⟨by decide, by decide, by decide, by decide, by decide⟩
    · rintro e ⟨⟩
      simp
  have hs : s.Spells s.bytes :=
    ⟨by decide, by decide, by decide, by simpa [s] using ⟨l, hparse⟩, rfl, by decide⟩
  constructor
  · obtain ⟨hiff, -, hparts, -⟩ := parse_iff_spelled .sha1 s.bytes
    obtain ⟨b, hb⟩ := hiff.mpr ⟨s, hs⟩
    obtain ⟨hlinks, hcontent, -, -⟩ := hparts s b hs hb
    exact ⟨b, hb, hlinks, hcontent⟩
  · obtain ⟨-, -, -, hnone⟩ := parse_iff_spelled .sha1 s.bytes.dropLast
    refine hnone ?_
    rintro ⟨t, ht⟩
    have hlen : s.bytes.dropLast.length = 63 := by decide
    have hpow := ht.length_eq
    rw [hlen] at hpow
    have hodd : 2 ^ t.exponent = 2 * 2 ^ (t.exponent - 1) := by
      rw [← Nat.pow_succ', Nat.succ_eq_add_one, Nat.sub_add_cancel (by have := ht.four_le; omega)]
    omega

end Block
end ContentAddressed
