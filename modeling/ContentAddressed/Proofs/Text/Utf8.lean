import ContentAddressed.Proofs.Bytes
import ContentAddressed.Text.Utf8

/-!
# Laws of UTF-8

A text is read back from its bytes, so texts with the same bytes are the same, and a character of
ASCII is one byte.
-/

namespace ContentAddressed.Utf8

theorem decode?_encode (s : String) : decode? (encode s) = some s := by
  simp [decode?, encode, String.fromUTF8?, String.toUTF8, String.fromUTF8, s.isValidUTF8]

theorem encode_injective {s t : String} (h : encode s = encode t) : s = t := by
  have hs := decode?_encode s
  rw [h, decode?_encode] at hs
  exact (Option.some.inj hs).symm

theorem encode_eq_flatMap (s : String) : encode s = s.toList.flatMap String.utf8EncodeChar := by
  simp [encode, String.toUTF8, ← String.utf8Encode_toList, List.utf8Encode]

theorem length_encode (s : String) : (encode s).length = s.utf8ByteSize := by
  simp [encode, String.toUTF8]

theorem encodeChar_ascii {c : Char} (hc : c.toNat < 128) :
    String.utf8EncodeChar c = [c.toUInt8] := by
  apply String.utf8EncodeChar_eq_singleton
  rw [Char.utf8Size_eq_one_iff, UInt32.le_iff_toNat_le]
  exact Nat.le_of_lt_succ hc

theorem encode_singleton {c : Char} (hc : c.toNat < 128) : encode c.toString = [c.toUInt8] := by
  simp [encode_eq_flatMap, encodeChar_ascii hc]

theorem flatMap_encodeChar_ascii {cs : List Char} (h : ∀ c ∈ cs, c.toNat < 128) :
    cs.flatMap String.utf8EncodeChar = cs.map Char.toUInt8 := by
  induction cs with
  | nil => rfl
  | cons c cs ih =>
    rw [List.forall_mem_cons] at h
    rw [List.flatMap_cons, encodeChar_ascii h.1, ih h.2]
    rfl

theorem encode_printable {s : String} (hs : Ascii.printable s) : encode s = Ascii.encode s := by
  rw [encode_eq_flatMap]
  apply flatMap_encodeChar_ascii
  intro c hc
  exact Ascii.toNat_lt_of_isPrintableChar (List.all_eq_true.mp hs c hc)

theorem utf8ByteSize_printable {s : String} (hs : Ascii.printable s) :
    s.utf8ByteSize = s.toList.length := by
  rw [← length_encode, encode_printable hs, Ascii.length_encode]

end ContentAddressed.Utf8
