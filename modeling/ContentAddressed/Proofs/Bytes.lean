import ContentAddressed.Text.Ascii
import Mathlib.Data.List.Basic
import Mathlib.Tactic.Ring

/-!
# Laws of byte strings

A number of fixed width and its bytes determine each other, a printable text and its bytes
determine each other, and the pieces of a byte string put together are the byte string.
-/

namespace ContentAddressed

/-- A property of bytes holds once it holds of the 256 numbers. -/
theorem forall_byte {p : UInt8 → Prop} (h : ∀ n : Fin 256, p (UInt8.ofNat n.val)) (b : UInt8) :
    p b := by
  have hb := h ⟨b.toNat, b.toNat_lt⟩
  rwa [UInt8.ofNat_toNat] at hb

namespace Bytes

theorem fromLittleEndian_littleEndian (w n : Nat) :
    fromLittleEndian (littleEndian w n) = n % 256 ^ w := by
  induction w generalizing n with
  | zero => simp [littleEndian, fromLittleEndian, Nat.mod_one]
  | succ w ih => simp [littleEndian, fromLittleEndian, ih, Nat.pow_succ', Nat.mod_mul]

theorem fromLittleEndian_lt (bs : Bytes) : fromLittleEndian bs < 256 ^ bs.length := by
  induction bs with
  | nil => simp [fromLittleEndian]
  | cons b bs ih =>
    have hb : b.toNat < 256 := b.toNat_lt
    rw [fromLittleEndian, List.length_cons, Nat.pow_succ]
    omega

theorem littleEndian_fromLittleEndian (bs : Bytes) :
    littleEndian bs.length (fromLittleEndian bs) = bs := by
  induction bs with
  | nil => rfl
  | cons b bs ih =>
    have hb : b.toNat < 256 := b.toNat_lt
    have hdiv : (b.toNat + 256 * fromLittleEndian bs) / 256 = fromLittleEndian bs := by omega
    have hlow : UInt8.ofNat (b.toNat + 256 * fromLittleEndian bs) = b := by
      apply UInt8.toNat_inj.mp
      rw [UInt8.toNat_ofNat']
      omega
    rw [fromLittleEndian, List.length_cons, littleEndian, hdiv, ih, hlow]

theorem toNat_getD (bs : Bytes) (i : Nat) :
    (bs.getD i 0).toNat = fromLittleEndian bs / 256 ^ i % 256 := by
  induction bs generalizing i with
  | nil => simp [fromLittleEndian]
  | cons b bs ih =>
    have hb : b.toNat < 256 := b.toNat_lt
    cases i with
    | zero =>
      rw [List.getD_cons_zero, fromLittleEndian]
      omega
    | succ i =>
      have hdiv : (b.toNat + 256 * fromLittleEndian bs) / 256 = fromLittleEndian bs := by omega
      rw [List.getD_cons_succ, ih, fromLittleEndian, Nat.pow_succ', ← Nat.div_div_eq_div_mul, hdiv]

theorem flatten_splitPieces (size count : Nat) (bs : Bytes) (done : List Bytes)
    (h : bs.length ≤ count * size) :
    (splitPieces size count bs done).flatten = done.reverse.flatten ++ bs := by
  induction count generalizing bs done with
  | zero =>
    have hnil : bs = [] := by simpa using h
    simp [splitPieces, hnil]
  | succ count ih =>
    have hdrop : (bs.drop size).length ≤ count * size := by
      rw [List.length_drop]
      rw [Nat.succ_mul] at h
      omega
    rw [splitPieces, ih _ _ hdrop]
    simp

theorem flatten_chunks {size : Nat} (hs : 0 < size) (bs : Bytes) :
    (chunks size bs).flatten = bs := by
  have hcount : bs.length ≤ (bs.length + (size - 1)) / size * size := by
    have hmod := Nat.mod_lt (bs.length + (size - 1)) hs
    have hdiv := Nat.div_add_mod' (bs.length + (size - 1)) size
    omega
  rw [chunks, flatten_splitPieces size _ bs [] hcount]
  rfl

theorem splitPieces_eq (size count : Nat) (bs : Bytes) (done : List Bytes) :
    splitPieces size count bs done =
      done.reverse ++ (List.range count).map fun i => (bs.drop (i * size)).take size := by
  induction count generalizing bs done with
  | zero => simp [splitPieces]
  | succ count ih =>
    rw [splitPieces, ih, List.reverse_cons, List.append_assoc, List.range_succ_eq_map]
    simp [List.drop_drop, Nat.succ_mul, Nat.add_comm]

theorem splitPieces_flatten {size : Nat} {pieces : List Bytes}
    (h : ∀ piece ∈ pieces, piece.length = size) (done : List Bytes) :
    splitPieces size pieces.length pieces.flatten done = done.reverse ++ pieces := by
  induction pieces generalizing done with
  | nil => simp [splitPieces]
  | cons piece pieces ih =>
    rw [List.forall_mem_cons] at h
    obtain ⟨rfl, hpieces⟩ := h
    rw [List.length_cons, splitPieces, List.flatten_cons, List.drop_left, List.take_left,
      ih hpieces]
    simp

/-- Pieces of one size are found again in what they make up. -/
theorem chunks_flatten {size : Nat} {pieces : List Bytes} (hs : 0 < size)
    (h : ∀ piece ∈ pieces, piece.length = size) : chunks size pieces.flatten = pieces := by
  have hlen : pieces.flatten.length = size * pieces.length := by
    rw [List.length_flatten, List.map_congr_left h]
    simp [Nat.mul_comm]
  have hcount : (pieces.flatten.length + (size - 1)) / size = pieces.length := by
    rw [hlen, Nat.mul_add_div hs, Nat.div_eq_of_lt (by omega), Nat.add_zero]
  rw [chunks, hcount, splitPieces_flatten h]
  rfl

theorem length_cycle (pattern : Bytes) (n : Nat) : (cycle pattern n).length = n := by
  rw [cycle]
  split
  · simp
  · next hp =>
    have hpos : 0 < pattern.length := by
      rw [List.length_pos_iff]
      simpa using hp
    have henough : n ≤ (n / pattern.length + 1) * pattern.length := by
      rw [Nat.succ_mul]
      have := Nat.div_add_mod' n pattern.length
      have := Nat.mod_lt n hpos
      omega
    simpa using henough

end Bytes

namespace Ascii

theorem toNat_ofNat {n : Nat} (hn : n < 128) : (Char.ofNat n).toNat = n := by
  have hvalid : n.isValidChar := Or.inl (by omega)
  rw [Char.ofNat, dif_pos hvalid]
  rfl

theorem bounds_of_isPrintableChar {c : Char} (hc : isPrintableChar c) :
    32 ≤ c.toNat ∧ c.toNat ≤ 126 := by
  simpa [isPrintableChar, Char.le_def, UInt32.le_iff_toNat_le] using hc

theorem toNat_lt_of_isPrintableChar {c : Char} (hc : isPrintableChar c) : c.toNat < 128 := by
  have hbounds := bounds_of_isPrintableChar hc
  omega

theorem toNat_toUInt8 {c : Char} (hc : c.toNat < 128) : c.toUInt8.toNat = c.toNat := by
  simp only [Char.toUInt8, UInt32.toNat_toUInt8]
  change c.toNat % 2 ^ 8 = c.toNat
  omega

theorem isPrintable_toUInt8 {c : Char} (hc : isPrintableChar c) :
    isPrintable c.toUInt8 ∧ Char.ofNat c.toUInt8.toNat = c := by
  have hbounds := bounds_of_isPrintableChar hc
  have hbyte := toNat_toUInt8 (toNat_lt_of_isPrintableChar hc)
  constructor
  · simp only [isPrintable, Bool.and_eq_true, decide_eq_true_eq, UInt8.le_iff_toNat_le,
      UInt8.lt_iff_toNat_lt, hbyte]
    exact ⟨hbounds.1, Nat.lt_succ_of_le hbounds.2⟩
  · rw [hbyte, Char.ofNat_toNat]

theorem toUInt8_ofNat {b : UInt8} (hb : isPrintable b) :
    isPrintableChar (Char.ofNat b.toNat) ∧ (Char.ofNat b.toNat).toUInt8 = b := by
  have hbounds : 32 ≤ b.toNat ∧ b.toNat < 127 := by
    simpa [isPrintable, UInt8.le_iff_toNat_le, UInt8.lt_iff_toNat_lt] using hb
  have hnat : (Char.ofNat b.toNat).toNat = b.toNat := toNat_ofNat (by omega)
  constructor
  · simp only [isPrintableChar, Bool.and_eq_true, decide_eq_true_eq, Char.le_def,
      UInt32.le_iff_toNat_le]
    change 32 ≤ (Char.ofNat b.toNat).toNat ∧ (Char.ofNat b.toNat).toNat ≤ 126
    omega
  · apply UInt8.toNat_inj.mp
    simp only [Char.toUInt8, UInt32.toNat_toUInt8]
    change (Char.ofNat b.toNat).toNat % 2 ^ 8 = b.toNat
    omega

@[simp] theorem length_encode (s : String) : (encode s).length = s.toList.length := by
  simp [encode]

@[simp] theorem length_decode (bs : Bytes) : (decode bs).toList.length = bs.length := by
  simp [decode]

theorem decode_encode {s : String} (hs : printable s) : decode (encode s) = s := by
  have hall : ∀ c ∈ s.toList, isPrintableChar c := by simpa [printable] using hs
  have hmap : s.toList.map (fun c => Char.ofNat c.toUInt8.toNat) = s.toList := by
    conv_rhs => rw [← List.map_id s.toList]
    exact List.map_congr_left fun c hc => (isPrintable_toUInt8 (hall c hc)).2
  rw [decode, encode, List.map_map]
  exact (congrArg String.ofList hmap).trans (String.ofList_toList)

theorem all_isPrintable_encode {s : String} (hs : printable s) :
    (encode s).all isPrintable := by
  have hall : ∀ c ∈ s.toList, isPrintableChar c := by simpa [printable] using hs
  simpa [encode] using fun c hc => (isPrintable_toUInt8 (hall c hc)).1

theorem printable_decode {bs : Bytes} (hb : bs.all isPrintable) : printable (decode bs) := by
  have hall : ∀ b ∈ bs, isPrintable b := by simpa using hb
  simpa [printable, decode] using fun b hb => (toUInt8_ofNat (hall b hb)).1

theorem encode_decode {bs : Bytes} (hb : bs.all isPrintable) : encode (decode bs) = bs := by
  have hall : ∀ b ∈ bs, isPrintable b := by simpa using hb
  rw [encode, decode, String.toList_ofList, List.map_map]
  conv_rhs => rw [← List.map_id bs]
  exact List.map_congr_left fun b hb => (toUInt8_ofNat (hall b hb)).2

end Ascii

end ContentAddressed
