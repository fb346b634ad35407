import ContentAddressed.Link.Basic
import ContentAddressed.Proofs.Text.Base64
import ContentAddressed.Proofs.Text.Blank

/-!
# Names of fingerprints

The text form of a fingerprint reads back as the fingerprint, is printable, and is short enough for
every frame.
-/

namespace ContentAddressed

theorem Text.cutList?_append {sep : Char} {before after : List Char} (h : sep ∉ before) :
    Text.cutList? sep (before ++ sep :: after) = some (before, after) := by
  induction before with
  | nil => simp [Text.cutList?]
  | cons c cs ih =>
    rw [List.mem_cons, not_or] at h
    rw [List.cons_append, Text.cutList?, if_neg (Ne.symm h.1), ih h.2]
    rfl

namespace Base64

/-- A symbol of a name is printable, and neither a colon nor a slash of either kind nor a space. -/
theorem fileName_symbol {n : Nat} (hn : n < 64) :
    Ascii.isPrintableChar (fileName.symbol n) ∧ fileName.symbol n ≠ ':' ∧
      fileName.symbol n ≠ '/' ∧ fileName.symbol n ≠ '\\' ∧ fileName.symbol n ≠ ' ' := by
  revert n
  decide

theorem mem_fileName_encodeList {bs : Bytes} {c : Char} (hc : c ∈ fileName.encodeList bs) :
    Ascii.isPrintableChar c ∧ c ≠ ':' ∧ c ≠ '/' ∧ c ≠ '\\' ∧ c ≠ ' ' := by
  rcases mem_encodeList hc with rfl | ⟨n, hn, rfl⟩
  · decide
  · exact fileName_symbol hn

end Base64

namespace DigestAlgorithm

theorem size_le (a : DigestAlgorithm) : a.size ≤ 64 := by
  cases a <;> decide

theorem ofName?_name (a : DigestAlgorithm) : ofName? a.name = some a := by
  cases a <;> rfl

theorem colon_not_mem_name (a : DigestAlgorithm) : ':' ∉ a.name.toList := by
  cases a <;> decide

theorem printable_name (a : DigestAlgorithm) : a.name.toList.all Ascii.isPrintableChar := by
  cases a <;> decide

theorem isBlank_of_mem_name {a : DigestAlgorithm} {c : Char} (hc : c ∈ a.name.toList) :
    Text.isBlank c = false := by
  have hall : a.name.toList.all fun c => !Text.isBlank c := by cases a <;> decide
  simpa using List.all_eq_true.mp hall c hc

theorem length_name_le (a : DigestAlgorithm) : a.name.toList.length ≤ 7 := by
  cases a <;> decide

end DigestAlgorithm

namespace Fingerprint

theorem toList_encode (fp : Fingerprint) :
    fp.encode.toList = fp.algorithm.name.toList ++ ':' :: Base64.fileName.encodeList fp.digest := by
  simp [encode, Base64.encode]

theorem algorithmNamed_eq_ok_iff {spelling : String} {a : DigestAlgorithm} :
    algorithmNamed spelling = .ok a ↔ DigestAlgorithm.ofName? spelling = some a := by
  rw [algorithmNamed]
  cases DigestAlgorithm.ofName? spelling <;> simp

theorem decode_encode (fp : Fingerprint) : decode fp.encode = .ok fp := by
  have hcolon : ':' ∉ Base64.fileName.encodeList fp.digest := by
    intro h
    exact (Base64.mem_fileName_encodeList h).2.1 rfl
  have hslash : (Base64.fileName.encodeList fp.digest).map (fun c => if c = '/' then '+' else c) =
      Base64.fileName.encodeList fp.digest := by
    calc
      _ = (Base64.fileName.encodeList fp.digest).map id :=
        List.map_congr_left fun c hc => if_neg (Base64.mem_fileName_encodeList hc).2.2.1
      _ = _ := List.map_id _
  have hname : algorithmNamed (String.ofList fp.algorithm.name.toList) = .ok fp.algorithm := by
    rw [String.ofList_toList, algorithmNamed_eq_ok_iff, DigestAlgorithm.ofName?_name]
  have hdigest : ofDigest fp.algorithm fp.digest = .ok fp := by
    rw [ofDigest, dif_pos fp.length_digest]
  rw [decode, toList_encode, Text.cutList?_append fp.algorithm.colon_not_mem_name]
  simp only [if_neg hcolon, hname, hslash,
    Base64.decodeList?_encodeList Base64.fileName_distinguishes]
  exact hdigest

theorem encode_injective {fp fp' : Fingerprint} (h : fp.encode = fp'.encode) : fp = fp' := by
  have hd := decode_encode fp
  rw [h, decode_encode] at hd
  exact (Except.ok.inj hd).symm

theorem printable_encode (fp : Fingerprint) : Ascii.printable fp.encode := by
  have hname := List.all_eq_true.mp fp.algorithm.printable_name
  rw [Ascii.printable, toList_encode, List.all_append, List.all_cons, Bool.and_eq_true,
    Bool.and_eq_true, List.all_eq_true, List.all_eq_true]
  exact ⟨hname, by decide, fun c hc => (Base64.mem_fileName_encodeList hc).1⟩

theorem space_not_mem_encode (fp : Fingerprint) : ' ' ∉ fp.encode.toList := by
  have hname : ' ' ∉ fp.algorithm.name.toList := by
    cases fp.algorithm <;> decide
  have hdigest : ' ' ∉ Base64.fileName.encodeList fp.digest := by
    intro h
    exact (Base64.mem_fileName_encodeList h).2.2.2.2 rfl
  simp [toList_encode, hname, hdigest]

theorem isBlank_of_mem_encode (fp : Fingerprint) :
    ∀ c ∈ fp.encode.toList, Text.isBlank c = false := by
  intro c hc
  refine Text.isBlank_of_isPrintableChar (List.all_eq_true.mp fp.printable_encode c hc) ?_
  rintro rfl
  exact fp.space_not_mem_encode hc

theorem encode_ne_empty (fp : Fingerprint) : fp.encode ≠ "" := by
  intro h
  have hlist := congrArg String.toList h
  rw [toList_encode] at hlist
  simp at hlist

theorem length_encode_le (fp : Fingerprint) : fp.encode.toList.length ≤ 96 := by
  have hname := fp.algorithm.length_name_le
  have hsize := fp.algorithm.size_le
  rw [toList_encode, List.length_append, List.length_cons, Base64.length_encodeList,
    fp.length_digest]
  omega

theorem isOf_of (a : DigestAlgorithm) (bs : Bytes) : (of a bs).isOf bs := by
  simp [isOf, of]

end Fingerprint

namespace Link

theorem fingerprint?_eq_some {l : Link} {fp : Fingerprint} (h : l.target = fp.encode) :
    l.fingerprint? = some fp := by
  rw [fingerprint?, h, Fingerprint.decode_encode]
  rfl

end Link

end ContentAddressed
