import ContentAddressed.Proofs.Text.Utf8
import ContentAddressed.Text.Charset

/-!
# Lenient reading

A lenient reading of the bytes of a text gives the text: the bytes of a character bring the reading
back to where a new character starts, and have given that character. A body is read as the text that
was written, unless the text begins with a byte order mark. Labels tell charsets apart.
-/

namespace ContentAddressed

namespace Utf8

variable {cs : List Char} {bs : Bytes} {p : Option Pending} {v : Nat}

/-- The characters that bytes give after a sequence in progress, and what they leave in progress. -/
def readFrom (p : Option Pending) : Bytes → List Char × Option Pending
  | [] => ([], p)
  | b :: bs => ((step p b).1 ++ (readFrom (step p b).2 bs).1, (readFrom (step p b).2 bs).2)

theorem readFrom_cons_of_step {b : UInt8} {after : Option Pending} (h : step p b = (cs, after)) :
    readFrom p (b :: bs) = (cs ++ (readFrom after bs).1, (readFrom after bs).2) := by
  rw [readFrom, h]

theorem foldl_step (acc : Array Char) (p : Option Pending) (bs : Bytes) :
    let read := bs.foldl (fun (acc : Array Char × Option Pending) b =>
      let (cs, after) := step acc.2 b
      (acc.1.appendList cs, after)) (acc, p)
    read.1.toList = acc.toList ++ (readFrom p bs).1 ∧ read.2 = (readFrom p bs).2 := by
  induction bs generalizing acc p with
  | nil => simp [readFrom]
  | cons b bs ih =>
    obtain ⟨hchars, hafter⟩ := ih (acc.appendList (step p b).1) (step p b).2
    refine ⟨?_, hafter⟩
    rw [List.foldl_cons, hchars, readFrom]
    simp

/-- Reading is going through the bytes, with a replacement for a sequence that is cut off. -/
theorem decodeLenient_eq (bs : Bytes) :
    decodeLenient bs = String.ofList ((readFrom none bs).1 ++
      if (readFrom none bs).2.isSome then [replacement] else []) := by
  obtain ⟨hchars, hafter⟩ := foldl_step #[] none bs
  rw [decodeLenient]
  simp only [hchars, hafter, List.nil_append]

/-! ## The bytes of a character -/

theorem toNat_byte {n : Nat} (h : n < 256) : (UInt8.ofNat n).toNat = n :=
  UInt8.toNat_ofNat_of_lt' h

theorem step_ascii (h : v ≤ 0x7F) : step none (UInt8.ofNat v) = ([Char.ofNat v], none) := by
  have hbyte : (UInt8.ofNat v).toNat = v := toNat_byte (by omega)
  have hlt : UInt8.ofNat v < 0x80 := by
    rw [UInt8.lt_iff_toNat_lt, hbyte]
    exact Nat.lt_succ_of_le h
  rw [step, start, if_pos hlt, hbyte]

theorem step_lead {n missing bits low high : Nat} (h : 0x80 ≤ n) (hn : n < 256)
    (hlead : lead? (UInt8.ofNat n) = some (missing, bits, low, high)) :
    step none (UInt8.ofNat n) = ([], some ⟨missing, bits, low, high⟩) := by
  have hlt : ¬ UInt8.ofNat n < 0x80 := by
    rw [UInt8.lt_iff_toNat_lt, toNat_byte hn]
    exact Nat.not_lt.mpr h
  rw [step, start, if_neg hlt, hlead]

/-- A byte within the bounds adds its six bits. -/
theorem step_next (missing bits : Nat) {low high : Nat} (hlow : low ≤ v % 64 + 0x80)
    (hhigh : v % 64 + 0x80 ≤ high) :
    step (some ⟨missing, bits, low, high⟩) (UInt8.ofNat (v % 64 + 0x80)) =
      if missing = 1 then ([Char.ofNat (bits * 64 + v % 64)], none)
      else ([], some ⟨missing - 1, bits * 64 + v % 64, 0x80, 0xBF⟩) := by
  have hbyte : (UInt8.ofNat (v % 64 + 0x80)).toNat = v % 64 + 0x80 := toNat_byte (by omega)
  have hbits : (v % 64 + 0x80) % 64 = v % 64 := by omega
  rw [step, hbyte, if_pos ⟨hlow, hhigh⟩, hbits]

theorem lead?_two (hlow : 0x80 ≤ v) (hhigh : v ≤ 0x7FF) :
    lead? (UInt8.ofNat (v / 64 % 0x20 + 0xC0)) = some (1, v / 64, 0x80, 0xBF) := by
  have hbyte : (UInt8.ofNat (v / 64 % 0x20 + 0xC0)).toNat = v / 64 + 0xC0 := by
    rw [toNat_byte (by omega)]
    omega
  rw [lead?, hbyte, if_pos (by omega), Nat.add_sub_cancel]

theorem lead?_three (hlow : 0x800 ≤ v) (hhigh : v ≤ 0xFFFF) (hv : v < 0xD800 ∨ 0xDFFF < v) :
    ∃ low high, lead? (UInt8.ofNat (v / 4096 % 0x10 + 0xE0)) = some (2, v / 4096, low, high) ∧
      low ≤ v / 64 % 64 + 0x80 ∧ v / 64 % 64 + 0x80 ≤ high := by
  have hbyte : (UInt8.ofNat (v / 4096 % 0x10 + 0xE0)).toNat = v / 4096 + 0xE0 := by
    rw [toNat_byte (by omega)]
    omega
  rw [lead?, hbyte, if_neg (by omega)]
  -- the second byte of the smallest characters, and of those below the surrogates, has own bounds
  by_cases hfirst : v / 4096 = 0
  · exact ⟨0xA0, 0xBF, by rw [hfirst]; rfl, by omega, by omega⟩
  · rw [if_neg (by omega)]
    by_cases hbelow : v / 4096 = 0xD
    · exact ⟨0x80, 0x9F, by rw [hbelow]; rfl, by omega, by omega⟩
    · rw [if_neg (by omega), if_pos (by omega), Nat.add_sub_cancel]
      exact ⟨0x80, 0xBF, rfl, by omega, by omega⟩

theorem lead?_four (hlow : 0x10000 ≤ v) (hhigh : v < 0x110000) :
    ∃ low high, lead? (UInt8.ofNat (v / 262144 % 0x08 + 0xF0)) =
      some (3, v / 262144, low, high) ∧
      low ≤ v / 4096 % 64 + 0x80 ∧ v / 4096 % 64 + 0x80 ≤ high := by
  have hbyte : (UInt8.ofNat (v / 262144 % 0x08 + 0xF0)).toNat = v / 262144 + 0xF0 := by
    rw [toNat_byte (by omega)]
    omega
  rw [lead?, hbyte, if_neg (by omega), if_neg (by omega), if_neg (by omega), if_neg (by omega)]
  by_cases hfirst : v / 262144 = 0
  · exact ⟨0x90, 0xBF, by rw [hfirst]; rfl, by omega, by omega⟩
  · rw [if_neg (by omega)]
    by_cases hlast : v / 262144 = 4
    · exact ⟨0x80, 0x8F, by rw [hlast]; rfl, by omega, by omega⟩
    · rw [if_neg (by omega), if_pos (by omega), Nat.add_sub_cancel]
      exact ⟨0x80, 0xBF, rfl, by omega, by omega⟩

/-! ## The bytes after the first one -/

theorem readFrom_one {low high : Nat} (hlow : low ≤ v % 64 + 0x80) (hhigh : v % 64 + 0x80 ≤ high)
    (rest : Bytes) :
    readFrom (some ⟨1, v / 64, low, high⟩) (UInt8.ofNat (v % 64 + 0x80) :: rest) =
      (Char.ofNat v :: (readFrom none rest).1, (readFrom none rest).2) := by
  have hstep := step_next 1 (v / 64) hlow hhigh
  rw [if_pos rfl, Nat.div_add_mod' v 64] at hstep
  rw [readFrom_cons_of_step hstep]
  rfl

theorem readFrom_two {low high : Nat} (hlow : low ≤ v / 64 % 64 + 0x80)
    (hhigh : v / 64 % 64 + 0x80 ≤ high) (rest : Bytes) :
    readFrom (some ⟨2, v / 4096, low, high⟩)
        (UInt8.ofNat (v / 64 % 64 + 0x80) :: UInt8.ofNat (v % 64 + 0x80) :: rest) =
      (Char.ofNat v :: (readFrom none rest).1, (readFrom none rest).2) := by
  have hstep := step_next 2 (v / 4096) hlow hhigh
  have hbits : v / 4096 * 64 + v / 64 % 64 = v / 64 := by omega
  rw [if_neg (by decide), hbits] at hstep
  rw [readFrom_cons_of_step hstep, List.nil_append]
  exact readFrom_one (by omega) (by omega) rest

theorem readFrom_three {low high : Nat} (hlow : low ≤ v / 4096 % 64 + 0x80)
    (hhigh : v / 4096 % 64 + 0x80 ≤ high) (rest : Bytes) :
    readFrom (some ⟨3, v / 262144, low, high⟩)
        (UInt8.ofNat (v / 4096 % 64 + 0x80) :: UInt8.ofNat (v / 64 % 64 + 0x80) ::
          UInt8.ofNat (v % 64 + 0x80) :: rest) =
      (Char.ofNat v :: (readFrom none rest).1, (readFrom none rest).2) := by
  have hstep := step_next 3 (v / 262144) hlow hhigh
  have hbits : v / 262144 * 64 + v / 4096 % 64 = v / 4096 := by omega
  rw [if_neg (by decide), hbits] at hstep
  rw [readFrom_cons_of_step hstep, List.nil_append]
  exact readFrom_two (by omega) (by omega) rest

theorem readFrom_encodeChar (c : Char) (rest : Bytes) :
    readFrom none (String.utf8EncodeChar c ++ rest) =
      (c :: (readFrom none rest).1, (readFrom none rest).2) := by
  have hchar : Char.ofNat c.val.toNat = c := Char.ofNat_toNat c
  have hvalid : c.val.toNat < 0xD800 ∨ 0xDFFF < c.val.toNat ∧ c.val.toNat < 0x110000 := c.valid
  rw [String.utf8EncodeChar]
  generalize c.val.toNat = v at hchar hvalid ⊢
  split_ifs with hone htwo hthree
  · rw [List.singleton_append, readFrom_cons_of_step (step_ascii hone), hchar]
    rfl
  · have hlead := step_lead (by omega) (by omega) (lead?_two (Nat.lt_of_not_le hone) htwo)
    rw [List.cons_append, readFrom_cons_of_step hlead, List.cons_append, List.nil_append,
      List.nil_append, readFrom_one (by omega) (by omega), hchar]
  · obtain ⟨low, high, hsome, hlow, hhigh⟩ :=
      lead?_three (Nat.lt_of_not_le htwo) hthree (by omega)
    have hlead := step_lead (by omega) (by omega) hsome
    rw [List.cons_append, readFrom_cons_of_step hlead, List.cons_append, List.cons_append,
      List.nil_append, List.nil_append, readFrom_two hlow hhigh, hchar]
  · obtain ⟨low, high, hsome, hlow, hhigh⟩ := lead?_four (Nat.lt_of_not_le hthree) (by omega)
    have hlead := step_lead (by omega) (by omega) hsome
    rw [List.cons_append, readFrom_cons_of_step hlead, List.cons_append, List.cons_append,
      List.cons_append, List.nil_append, List.nil_append, readFrom_three hlow hhigh, hchar]

theorem readFrom_encode (cs : List Char) :
    readFrom none (cs.flatMap String.utf8EncodeChar) = (cs, none) := by
  induction cs with
  | nil => rfl
  | cons c cs ih => rw [List.flatMap_cons, readFrom_encodeChar, ih]

theorem decodeLenient_encode (s : String) : decodeLenient (encode s) = s := by
  rw [decodeLenient_eq, encode_eq_flatMap, readFrom_encode]
  simp

/-! ## Byte order marks -/

theorem lt_of_mem_encodeChar (c : Char) : ∀ b ∈ String.utf8EncodeChar c, b.toNat < 0xF8 := by
  rw [String.utf8EncodeChar]
  generalize c.val.toNat = v
  split_ifs
  all_goals
    simp only [List.forall_mem_cons, List.not_mem_nil, false_implies, implies_true, and_true,
      UInt8.toNat_ofNat']
    omega

theorem lt_of_mem_encode {s : String} {b : UInt8} (h : b ∈ encode s) : b.toNat < 0xF8 := by
  rw [encode_eq_flatMap, List.mem_flatMap] at h
  obtain ⟨c, -, h⟩ := h
  exact lt_of_mem_encodeChar c b h

def mark : Char := '\ufeff'

theorem encodeChar_mark : String.utf8EncodeChar mark = [0xEF, 0xBB, 0xBF] := by
  decide

theorem decodeLenient_mark (bs : Bytes) :
    (decodeLenient (0xEF :: 0xBB :: 0xBF :: bs)).toList.head? = some mark := by
  have h := readFrom_encodeChar mark bs
  simp only [encodeChar_mark, List.cons_append, List.nil_append] at h
  rw [decodeLenient_eq, h, String.toList_ofList]
  rfl

end Utf8

namespace Text

/-- A text without a byte order mark in front is left to the reading that is asked for. -/
theorem decodeAs_encode (plain : Bytes → String) {s : String}
    (hmark : s.toList.head? ≠ some Utf8.mark) :
    decodeAs plain (Utf8.encode s) = plain (Utf8.encode s) := by
  have hread := Utf8.decodeLenient_encode s
  unfold decodeAs
  split
  · next hbytes =>
    rw [hbytes] at hread
    rw [← hread] at hmark
    exact absurd (Utf8.decodeLenient_mark _) hmark
  · next hbytes =>
    have hlt := Utf8.lt_of_mem_encode (s := s) (b := 0xFF) (by simp [hbytes])
    exact absurd hlt (by decide)
  · next hbytes =>
    have hlt := Utf8.lt_of_mem_encode (s := s) (b := 0xFE) (by simp [hbytes])
    exact absurd hlt (by decide)
  · rfl

/-- A text is carried in a body as it is, unless it begins with a byte order mark. -/
theorem decodeBody_encode_iff {s : String} :
    decodeBody (Utf8.encode s) = s ↔ s.toList.head? ≠ some Utf8.mark := by
  constructor
  · intro h hmark
    obtain ⟨cs, hcs⟩ : ∃ cs, s.toList = Utf8.mark :: cs := by
      cases hs : s.toList with
      | nil => simp [hs] at hmark
      | cons c cs => exact ⟨cs, by simpa [hs] using hmark⟩
    have hbytes : Utf8.encode s =
        0xEF :: 0xBB :: 0xBF :: Utf8.encode (String.ofList cs) := by
      rw [Utf8.encode_eq_flatMap, hcs, List.flatMap_cons, Utf8.encodeChar_mark,
        Utf8.encode_eq_flatMap, String.toList_ofList]
      rfl
    rw [hbytes, decodeBody, decodeAs, Utf8.decodeLenient_encode] at h
    have hlength := congrArg (fun t => t.toList.length) h
    simp [hcs] at hlength
  · intro hmark
    rw [decodeBody, decodeAs_encode _ hmark, Utf8.decodeLenient_encode]

theorem head?_ne_mark_of_printable {s : String} (h : Ascii.printable s) :
    s.toList.head? ≠ some Utf8.mark := by
  intro hmark
  have hmem : Utf8.mark ∈ s.toList := List.mem_of_mem_head? hmark
  exact absurd (List.all_eq_true.mp h _ hmem) (by decide)

theorem decodeBody_printable {s : String} (h : Ascii.printable s) :
    decodeBody (Utf8.encode s) = s :=
  decodeBody_encode_iff.mpr (head?_ne_mark_of_printable h)

namespace Charset

/-- Every label stands for its own charset, and for no other one. -/
theorem ofLabel?_eq_some_of_mem {c : Charset} {label : String} (h : label ∈ c.labels) :
    ofLabel? label = some c := by
  have hall : ∀ c ∈ all, ∀ label ∈ c.labels, ofLabel? label = some c := by decide +kernel
  have hc : c ∈ all := by
    cases c with
    | utf16 bigEndian => cases bigEndian <;> decide
    | _ => decide
  exact hall c hc label h

theorem ofWindows_of_isPrintable {b : UInt8} (h : Ascii.isPrintable b) :
    ofWindows b = Char.ofNat b.toNat := by
  have hlt : ¬ 0x80 ≤ b := by
    simp only [Ascii.isPrintable, Bool.and_eq_true, decide_eq_true_eq, UInt8.le_iff_toNat_le,
      UInt8.lt_iff_toNat_lt] at h ⊢
    exact Nat.not_le.mpr (Nat.lt_trans h.2 (by decide))
  rw [ofWindows, if_neg hlt]

/-- Printable text is read as it is in each charset but those of two-byte units. -/
theorem decode_printable {c : Charset} (hc : ∀ bigEndian, c ≠ utf16 bigEndian) {s : String}
    (h : Ascii.printable s) : c.decode (Utf8.encode s) = s := by
  cases c with
  | utf8 => exact Utf8.decodeLenient_encode s
  | utf16 bigEndian => exact absurd rfl (hc bigEndian)
  | windows1252 =>
    rw [Utf8.encode_printable h, decode, List.map_congr_left fun b hb =>
      ofWindows_of_isPrintable (List.all_eq_true.mp (Ascii.all_isPrintable_encode h) b hb)]
    exact Ascii.decode_encode h

end Charset

end Text

end ContentAddressed
