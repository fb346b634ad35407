import ContentAddressed.Http.Percent
import ContentAddressed.Proofs.Text.Utf8

/-!
# Segments of paths

The spellings of a text in a segment of a path. Each is read back as the text, and the written form
of a text without spaces is one of them.
-/

namespace ContentAddressed

namespace Http

def isSegmentChar (c : Char) : Bool :=
  ('a' ≤ c && c ≤ 'z') || ('A' ≤ c && c ≤ 'Z') || ('0' ≤ c && c ≤ '9') ||
    "-._~!$&'()*+,;=:@".toList.contains c

/-- The spellings of bytes: a byte is its character, if a segment may hold that, or a percent sign
and two digits. -/
inductive SpellsBytes : List Char → Bytes → Prop
  | nil : SpellsBytes [] []
  | plain {c : Char} {cs : List Char} {bs : Bytes} :
    isSegmentChar c → SpellsBytes cs bs → SpellsBytes (c :: cs) (c.toUInt8 :: bs)
  | digits {a b : Char} {x y : Nat} {cs : List Char} {bs : Bytes} :
    Hex.value? a = some x → Hex.value? b = some y → SpellsBytes cs bs →
      SpellsBytes ('%' :: a :: b :: cs) (UInt8.ofNat (x * 16 + y) :: bs)

/-- A segment that stands for a text. -/
def SpellsText (segment text : String) : Prop := SpellsBytes segment.toList (Utf8.encode text)

variable {c : Char} {cs : List Char} {bs : Bytes} {segment text : String}

theorem toNat_lt_of_isSegmentChar (hc : isSegmentChar c) : c.toNat < 128 := by
  rw [isSegmentChar, Bool.or_eq_true] at hc
  rcases hc with hc | hc
  · simp [Char.le_def, UInt32.le_iff_toNat_le] at hc
    omega
  · have hall : "-._~!$&'()*+,;=:@".toList.all fun c => c.toNat < 128 := by decide
    simpa using List.all_eq_true.mp hall c (List.contains_iff_mem.mp hc)

theorem ne_of_isSegmentChar (hc : isSegmentChar c) : c ≠ '%' ∧ c ≠ '/' ∧ c ≠ '?' ∧ c ≠ '#' := by
  refine ⟨?_, ?_, ?_, ?_⟩ <;> rintro rfl <;> exact absurd hc (by decide)

theorem ne_of_mem (h : SpellsBytes cs bs) (hc : c ∈ cs) : c ≠ '/' ∧ c ≠ '?' ∧ c ≠ '#' := by
  have hdigit : ∀ {d : Char} {x : Nat}, Hex.value? d = some x → d ≠ '/' ∧ d ≠ '?' ∧ d ≠ '#' := by
    intro d x hd
    refine ⟨?_, ?_, ?_⟩ <;> rintro rfl <;> cases hd
  induction h with
  | nil => cases hc
  | plain hplain _ ih =>
    rcases List.mem_cons.mp hc with rfl | hc
    · exact (ne_of_isSegmentChar hplain).2
    · exact ih hc
  | digits ha hb _ ih =>
    simp only [List.mem_cons] at hc
    rcases hc with rfl | rfl | rfl | hc
    · decide
    · exact hdigit ha
    · exact hdigit hb
    · exact ih hc

theorem percentDecodeBytes_cons (hc : c ≠ '%') (cs : List Char) :
    percentDecodeBytes (c :: cs) = Utf8.encode c.toString ++ percentDecodeBytes cs := by
  rw [percentDecodeBytes]
  rintro _ _ _ rfl
  exact absurd rfl hc

theorem percentDecodeBytes_eq (h : SpellsBytes cs bs) : percentDecodeBytes cs = bs := by
  induction h with
  | nil => rfl
  | plain hc _ ih =>
    rw [percentDecodeBytes_cons (ne_of_isSegmentChar hc).1,
      Utf8.encode_singleton (toNat_lt_of_isSegmentChar hc), ih]
    rfl
  | digits ha hb _ ih =>
    rw [percentDecodeBytes, ha, hb, ih]

theorem percentDecode?_eq (h : SpellsText segment text) : percentDecode? segment = some text := by
  rw [percentDecode?, percentDecodeBytes_eq h, Utf8.decode?_encode]

/-! ## The written form -/

theorem spells_plain (b : UInt8) (h : isPlainInForm b) :
    isSegmentChar (Char.ofNat b.toNat) ∧ (Char.ofNat b.toNat).toUInt8 = b := by
  revert h
  exact forall_byte (p := fun b => isPlainInForm b → isSegmentChar (Char.ofNat b.toNat) ∧
    (Char.ofNat b.toNat).toUInt8 = b) (by decide +kernel) b

theorem value?_upperDigit {n : Nat} (hn : n < 16) : Hex.value? (upperDigit n) = some n := by
  revert n
  decide

theorem spells_formByte {b : UInt8} (hb : b ≠ 0x20) (h : SpellsBytes cs bs) :
    SpellsBytes (formByte b ++ cs) (b :: bs) := by
  by_cases hplain : isPlainInForm b
  · obtain ⟨hc, hbyte⟩ := spells_plain b hplain
    have hspells := SpellsBytes.plain hc h
    rw [hbyte] at hspells
    simpa [formByte, hplain] using hspells
  · have hlt := b.toNat_lt
    have hhigh := value?_upperDigit (n := b.toNat / 16) (by omega)
    have hlow := value?_upperDigit (n := b.toNat % 16) (by omega)
    have hspells := SpellsBytes.digits hhigh hlow h
    rw [Nat.div_add_mod', UInt8.ofNat_toNat] at hspells
    simpa [formByte, hplain, hb, percentByte] using hspells

/-- What becomes of a byte that a form writes and a path reads. -/
def plusByte (b : UInt8) : UInt8 := if b = 0x20 then 0x2B else b

theorem spells_formByte_plus {b : UInt8} (h : SpellsBytes cs bs) :
    SpellsBytes (formByte b ++ cs) (plusByte b :: bs) := by
  by_cases hb : b = 0x20
  · subst hb
    exact .plain (c := '+') (by decide) h
  · rw [plusByte, if_neg hb]
    exact spells_formByte hb h

/-- The written form of bytes, read in a path, has plus signs for spaces. -/
theorem spells_flatMap (bs : Bytes) : SpellsBytes (bs.flatMap formByte) (bs.map plusByte) := by
  induction bs with
  | nil => exact .nil
  | cons b bs ih => exact spells_formByte_plus ih

theorem spells_formEncode (h : 0x20 ∉ Utf8.encode text) : SpellsText (formEncode text) text := by
  have hkeep : ∀ b ∈ Utf8.encode text, plusByte b = b := fun b hb =>
    if_neg fun (hspace : b = 0x20) => h (hspace ▸ hb)
  have hspells := spells_flatMap (Utf8.encode text)
  rw [List.map_congr_left hkeep, List.map_id'] at hspells
  rw [SpellsText, formEncode, String.toList_ofList]
  exact hspells

end Http

end ContentAddressed
