import ContentAddressed.Proofs.Fingerprint
import ContentAddressed.Proofs.Result
import ContentAddressed.Proofs.Text.Blank

/-!
# Spellings of fingerprints

A text is read as a fingerprint exactly if it is a spelling of the algorithm, a colon and the
written form of the digest, where a slash may stand for a plus sign. Apart from the slashes a digest
has one written form, so no name can be altered without naming another fingerprint or none.
-/

namespace ContentAddressed

namespace Text

variable {sep : Char} {cs before after : List Char}

theorem cutList?_eq_some_iff :
    cutList? sep cs = some (before, after) ↔ cs = before ++ sep :: after ∧ sep ∉ before := by
  constructor
  · intro h
    induction cs generalizing before with
    | nil => simp [cutList?] at h
    | cons c cs ih =>
      rw [cutList?] at h
      by_cases hc : c = sep
      · rw [if_pos hc] at h
        obtain ⟨rfl, rfl⟩ := Prod.mk.inj (Option.some.inj h)
        simp [hc]
      · rw [if_neg hc, Option.map_eq_some_iff] at h
        obtain ⟨⟨first, rest⟩, hcut, h⟩ := h
        obtain ⟨rfl, rfl⟩ := Prod.mk.inj h
        obtain ⟨rfl, hfirst⟩ := ih hcut
        exact ⟨rfl, by simp [Ne.symm hc, hfirst]⟩
  · rintro ⟨rfl, h⟩
    exact cutList?_append h

end Text

namespace DigestAlgorithm

variable {a : DigestAlgorithm} {c : Char}

/-- A text that stands for an algorithm: between blanks it has the name without its hyphen, up to
hyphens, underscores and the case of letters. -/
def SpelledBy (a : DigestAlgorithm) (spelling : String) : Prop :=
  ∃ before core after, spelling.toList = before ++ core ++ after ∧
    (∀ c ∈ before, Text.isBlank c) ∧ (∀ c ∈ after, Text.isBlank c) ∧
    (core.filter fun c => c != '-' && c != '_').map Ascii.lower = a.name.toList.filter (· != '-')

theorem toList_plainName (a : DigestAlgorithm) :
    a.plainName.toList = a.name.toList.filter (· != '-') := by
  cases a <;> rfl

theorem ofName?_eq_some_iff_plain {spelling : String} :
    ofName? spelling = some a ↔ plainSpelling spelling = a.plainName := by
  rw [ofName?]
  constructor
  · intro h
    exact (by simpa using List.find?_some h : a.plainName = plainSpelling spelling).symm
  · intro h
    rw [h]
    cases a <;> rfl

theorem lower_of_isBlank (hc : Text.isBlank c) : Ascii.lower c = c := by
  rw [Ascii.lower, if_neg]
  rintro ⟨hlow, hhigh⟩
  simp [Char.le_def, UInt32.le_iff_toNat_le] at hlow hhigh
  simp [Text.isBlank, Text.blankRanges] at hc
  omega

/-- The characters between the blanks of a spelling, hyphens and underscores apart, are those of the
name. -/
theorem lower_mem_name {core : List Char}
    (h : (core.filter fun c => c != '-' && c != '_').map Ascii.lower =
      a.name.toList.filter (· != '-')) (hc : c ∈ core) (hkept : c ≠ '-' ∧ c ≠ '_') :
    Ascii.lower c ∈ a.name.toList := by
  have hmem : Ascii.lower c ∈ a.name.toList.filter (· != '-') := by
    rw [← h]
    exact List.mem_map_of_mem (List.mem_filter.mpr ⟨hc, by simpa using hkept⟩)
  exact (List.mem_filter.mp hmem).1

theorem isBlank_of_mem_core {core : List Char}
    (h : (core.filter fun c => c != '-' && c != '_').map Ascii.lower =
      a.name.toList.filter (· != '-')) (hc : c ∈ core) : Text.isBlank c = false := by
  rw [Bool.eq_false_iff]
  intro hblank
  have hkept : c ≠ '-' ∧ c ≠ '_' := by
    constructor <;> rintro rfl <;> exact absurd hblank (by decide)
  have hmem := lower_mem_name h hc hkept
  rw [lower_of_isBlank hblank] at hmem
  rw [isBlank_of_mem_name hmem] at hblank
  cases hblank

theorem ofName?_eq_some_iff {spelling : String} :
    ofName? spelling = some a ↔ a.SpelledBy spelling := by
  rw [ofName?_eq_some_iff_plain, plainSpelling, ← String.toList_inj, String.toList_ofList,
    toList_plainName]
  constructor
  · intro h
    obtain ⟨before, after, hlist, hbefore, hafter⟩ := Text.exists_blanks spelling.toList
    exact ⟨before, _, after, hlist, hbefore, hafter, h⟩
  · rintro ⟨before, core, after, hlist, hbefore, hafter, h⟩
    have hcore : ∀ c ∈ core, Text.isBlank c = false := fun c hc => isBlank_of_mem_core h hc
    rw [hlist, Text.trimList_surrounded hcore hbefore hafter]
    exact h

theorem SpelledBy.colon_not_mem {spelling : String} (h : a.SpelledBy spelling) :
    ':' ∉ spelling.toList := by
  obtain ⟨before, core, after, hlist, hbefore, hafter, hname⟩ := h
  rw [hlist, List.mem_append, List.mem_append]
  rintro ((hmem | hmem) | hmem)
  · exact absurd (hbefore _ hmem) (by decide)
  · exact a.colon_not_mem_name (lower_mem_name hname hmem (by decide))
  · exact absurd (hafter _ hmem) (by decide)

end DigestAlgorithm

namespace Fingerprint

variable {fp fp' : Fingerprint} {name spelling digits : String}

/-- The written form of a digest, where a slash may stand for each plus sign. -/
def Writes (digits : String) (digest : Bytes) : Prop :=
  List.Forall₂ (fun c symbol => c = symbol ∨ c = '/' ∧ symbol = '+') digits.toList
    (Base64.fileName.encodeList digest)

theorem map_slash_eq_iff {cs symbols : List Char} (h : '/' ∉ symbols) :
    (cs.map fun c => if c = '/' then '+' else c) = symbols ↔
      List.Forall₂ (fun c symbol => c = symbol ∨ c = '/' ∧ symbol = '+') cs symbols := by
  induction cs generalizing symbols with
  | nil => simp [eq_comm]
  | cons c cs ih =>
    cases symbols with
    | nil => simp
    | cons symbol symbols =>
      rw [List.mem_cons, not_or] at h
      rw [List.map_cons, List.cons.injEq, ih h.2, List.forall₂_cons]
      by_cases hc : c = '/'
      · simp [hc, h.1, eq_comm]
      · simp [hc]

theorem slash_not_mem_encodeList (digest : Bytes) :
    '/' ∉ Base64.fileName.encodeList digest :=
  fun h => (Base64.mem_fileName_encodeList h).2.2.1 rfl

/-- Reading digits gives the digest of which they are the written form. -/
theorem decodeList?_eq_some_iff_writes {digest : Bytes} :
    Base64.fileName.decodeList? (digits.toList.map fun c => if c = '/' then '+' else c) =
      some digest ↔ Writes digits digest := by
  rw [Base64.decodeList?_eq_some_iff Base64.fileName_distinguishes,
    map_slash_eq_iff (slash_not_mem_encodeList digest)]
  rfl

theorem Writes.colon_not_mem {digest : Bytes} (h : Writes digits digest) :
    ':' ∉ digits.toList := by
  intro hmem
  have hmap := (map_slash_eq_iff (slash_not_mem_encodeList digest)).mpr h
  have hsymbol : ':' ∈ Base64.fileName.encodeList digest := by
    rw [← hmap]
    exact List.mem_map.mpr ⟨':', hmem, rfl⟩
  exact (Base64.mem_fileName_encodeList hsymbol).2.1 rfl

theorem ofDigest_eq_ok_iff {a : DigestAlgorithm} {digest : Bytes} :
    ofDigest a digest = .ok fp ↔ fp.algorithm = a ∧ fp.digest = digest := by
  rw [ofDigest]
  constructor
  · intro h
    split at h
    · cases h
      exact ⟨rfl, rfl⟩
    · cases h
  · rintro ⟨rfl, rfl⟩
    rw [dif_pos fp.length_digest]

theorem decode_append (h : ':' ∉ spelling.toList) :
    decode (spelling ++ ":" ++ digits) = .ok fp ↔
      fp.algorithm.SpelledBy spelling ∧ Writes digits fp.digest := by
  have hcut : Text.cutList? ':' (spelling ++ ":" ++ digits).toList =
      some (spelling.toList, digits.toList) := by
    rw [String.toList_append, String.toList_append, List.append_assoc]
    exact Text.cutList?_append h
  rw [decode, hcut]
  simp only
  by_cases hcolon : ':' ∈ digits.toList
  · simp only [if_pos hcolon, reduceCtorEq, false_iff, not_and]
    exact fun _ hwrites => hwrites.colon_not_mem hcolon
  · rw [if_neg hcolon, String.ofList_toList]
    simp only [Result.bind_eq_ok_iff, algorithmNamed_eq_ok_iff,
      DigestAlgorithm.ofName?_eq_some_iff]
    constructor
    · rintro ⟨a, ha, h⟩
      split at h
      · cases h
      · next digest hdigest =>
        obtain ⟨rfl, rfl⟩ := ofDigest_eq_ok_iff.mp h
        exact ⟨ha, decodeList?_eq_some_iff_writes.mp hdigest⟩
    · rintro ⟨ha, hwrites⟩
      refine ⟨fp.algorithm, ha, ?_⟩
      rw [decodeList?_eq_some_iff_writes.mpr hwrites]
      exact ofDigest_eq_ok_iff.mpr ⟨rfl, rfl⟩

theorem exists_append_of_decode (h : decode name = .ok fp) :
    ∃ spelling digits : String, name = spelling ++ ":" ++ digits ∧ ':' ∉ spelling.toList := by
  rw [decode] at h
  split at h
  · cases h
  · next spelling digits hcut =>
    obtain ⟨hlist, hcolon⟩ := Text.cutList?_eq_some_iff.mp hcut
    refine ⟨String.ofList spelling, String.ofList digits, ?_, by simpa using hcolon⟩
    rw [← String.toList_inj, hlist]
    simp

/-- A text is read as a fingerprint exactly if it is a spelling of the algorithm, a colon and the
written form of the digest; the name of a fingerprint is such a text, and no other one has it. -/
theorem decode_iff_spelled :
    (∀ (name : String) (fp : Fingerprint), decode name = .ok fp ↔
      ∃ spelling digits : String, name = spelling ++ ":" ++ digits ∧
        fp.algorithm.SpelledBy spelling ∧ Writes digits fp.digest) ∧
    (∀ fp : Fingerprint, decode fp.encode = .ok fp) ∧ Function.Injective encode := by
  refine ⟨fun name fp => ⟨fun h => ?_, ?_⟩, decode_encode, fun _ _ => encode_injective⟩
  · obtain ⟨spelling, digits, rfl, hcolon⟩ := exists_append_of_decode h
    exact ⟨spelling, digits, rfl, (decode_append hcolon).mp h⟩
  · rintro ⟨spelling, digits, rfl, hspelled, hwrites⟩
    exact (decode_append hspelled.colon_not_mem).mpr ⟨hspelled, hwrites⟩

/-- Blanks, capitals and an underscore in the algorithm, and slashes in the digest. -/
theorem decode_iff_spelled_slashes :
    decode " SHA_1\t://////////////////////////8=" =
      .ok ⟨.sha1, List.replicate 20 255, by decide⟩ := by
  refine (decode_iff_spelled.1 _ _).mpr
    ⟨" SHA_1\t", "//////////////////////////8=", rfl, ?_, ?_⟩
  · exact ⟨[' '], ['S', 'H', 'A', '_', '1'], ['\t'], rfl, List.forall_mem_singleton.mpr (by decide),
      List.forall_mem_singleton.mpr (by decide), by decide⟩
  · rw [Writes]
    decide

end Fingerprint

end ContentAddressed
