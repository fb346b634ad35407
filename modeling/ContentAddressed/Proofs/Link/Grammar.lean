import ContentAddressed.Proofs.Link.Frame

/-!
# The grammar of link frames

A spelling is a choice of the five numbers and the four fields of a frame. A byte string parses as a
link exactly when it has a spelling, and the link keeps all of it: its frame is the byte string that
was read, whatever the lengths in bits are. Any other byte string is refused as malformed.
-/

namespace ContentAddressed.Link

theorem blamesBytes_read : Reader.BlamesBytes read := by
  refine (Reader.blamesBytes_magic _ _).bind fun _ => ?_
  refine (Reader.blamesBytes_number _ _).bind fun bodyLength => ?_
  refine (Reader.blamesBytes_number _ _).bind fun algorithmLength => ?_
  refine (Reader.blamesBytes_number _ _).bind fun targetLength => ?_
  refine (Reader.blamesBytes_number _ _).bind fun keyBits => ?_
  refine (Reader.blamesBytes_number _ _).bind fun ivBits => Reader.BlamesBytes.guard _ _ ?_
  refine (Reader.blamesBytes_text _ _).bind fun algorithm => ?_
  refine (Reader.blamesBytes_text _ _).bind fun target => ?_
  refine (Reader.blamesBytes_take _ _).bind fun key => ?_
  refine (Reader.blamesBytes_take _ _).bind fun iv => Reader.BlamesBytes.guard _ _ ?_
  exact Reader.BlamesBytes.pure _

theorem exists_format_of_parse {buffer : Bytes} {e : Error} (h : parse buffer = .error e) :
    ∃ cause, e = .format cause := by
  change (read ⟨0, buffer⟩ >>= fun p => if p.2.rest.isEmpty then Except.ok p.1
    else .error (.format (.trailingBytes p.2.rest.length))) = .error e at h
  cases hread : read ⟨0, buffer⟩ with
  | error e' =>
    obtain rfl : e' = e := by simpa [hread, bind, Except.bind] using h
    exact blamesBytes_read _ _ hread
  | ok p =>
    simp only [hread, bind, Except.bind] at h
    split at h
    · cases h
    · exact ⟨_, (Except.error.inj h).symm⟩

structure Spelling where
  bodyLength : UInt16
  algorithmLength : UInt16
  targetLength : UInt16
  keyBits : UInt16
  ivBits : UInt16
  algorithm : Bytes
  target : Bytes
  key : Bytes
  iv : Bytes

namespace Spelling

variable {s : Spelling} {buffer : Bytes} {l : Link}

/-- The numbers and the fields in the order in which a frame has them. -/
def bytes (s : Spelling) : Bytes :=
  magic ++ Bytes.littleEndian 2 s.bodyLength.toNat ++
    Bytes.littleEndian 2 s.algorithmLength.toNat ++ Bytes.littleEndian 2 s.targetLength.toNat ++
    Bytes.littleEndian 2 s.keyBits.toNat ++ Bytes.littleEndian 2 s.ivBits.toNat ++
    (s.algorithm ++ (s.target ++ (s.key ++ s.iv)))

/-- What makes the numbers and the fields a frame. -/
structure Spells (s : Spelling) (buffer : Bytes) : Prop where
  algorithm_length : s.algorithm.length = s.algorithmLength.toNat
  algorithm_printable : s.algorithm.all Ascii.isPrintable
  target_length : s.target.length = s.targetLength.toNat
  target_printable : s.target.all Ascii.isPrintable
  target_ne : s.target ≠ []
  key_length : s.key.length = (s.keyBits.toNat + 7) / 8
  iv_length : s.iv.length = (s.ivBits.toNat + 7) / 8
  bodyLength_eq : s.bodyLength.toNat = s.algorithmLength.toNat + s.targetLength.toNat +
    (s.keyBits.toNat + 7) / 8 + (s.ivBits.toNat + 7) / 8
  bytes_eq : s.bytes = buffer

def link (s : Spelling) : Link :=
  ⟨Ascii.decode s.target, spelledDecryption (Ascii.decode s.algorithm) s.key s.keyBits.toNat s.iv
    s.ivBits.toNat⟩

theorem Spells.fields (h : s.Spells buffer) :
    Fields (Ascii.decode s.algorithm) (Ascii.decode s.target) s.key s.keyBits.toNat s.iv
      s.ivBits.toNat := by
  have hbody := s.bodyLength.toNat_lt
  have hkey := s.keyBits.toNat_lt
  have hiv := s.ivBits.toNat_lt
  have hsum := h.bodyLength_eq
  refine ⟨Ascii.printable_decode h.algorithm_printable, ?_,
    Ascii.printable_decode h.target_printable, by omega, h.key_length, by omega, h.iv_length, ?_⟩
  · intro hempty
    exact h.target_ne (by rw [← Ascii.encode_decode h.target_printable, hempty]; rfl)
  · simp only [Ascii.length_decode, h.algorithm_length, h.target_length, h.key_length, h.iv_length]
    omega

/-- The frame of the link that a spelling stands for is the byte string that it spells. -/
theorem Spells.frame_link (h : s.Spells buffer) : s.link.frame = buffer := by
  have hsum : s.algorithm.length + s.target.length + s.key.length + s.iv.length =
      s.bodyLength.toNat := by
    rw [h.algorithm_length, h.target_length, h.key_length, h.iv_length, h.bodyLength_eq]
  rw [link, frame_spelled h.fields, Ascii.encode_decode h.algorithm_printable,
    Ascii.encode_decode h.target_printable, Ascii.length_decode, Ascii.length_decode, hsum,
    h.algorithm_length, h.target_length]
  exact h.bytes_eq

def ofFields (algorithm target : String) (key : Bytes) (keyBits : Nat) (iv : Bytes)
    (ivBits : Nat) : Spelling where
  bodyLength := .ofNat
    (algorithm.toList.length + target.toList.length + key.length + iv.length)
  algorithmLength := .ofNat algorithm.toList.length
  targetLength := .ofNat target.toList.length
  keyBits := .ofNat keyBits
  ivBits := .ofNat ivBits
  algorithm := Ascii.encode algorithm
  target := Ascii.encode target
  key := key
  iv := iv

variable {algorithm target : String} {key : Bytes} {keyBits : Nat} {iv : Bytes} {ivBits : Nat}

theorem toNat_number {n : Nat} (hn : n ≤ 65535) : (UInt16.ofNat n).toNat = n :=
  UInt16.toNat_ofNat_of_lt' (Nat.lt_succ_of_le hn)

theorem link_ofFields (h : Fields algorithm target key keyBits iv ivBits) :
    (ofFields algorithm target key keyBits iv ivBits).link =
      ⟨target, spelledDecryption algorithm key keyBits iv ivBits⟩ := by
  simp only [link, ofFields, toNat_number h.keyBits_le, toNat_number h.ivBits_le,
    Ascii.decode_encode h.target_printable, Ascii.decode_encode h.algorithm_printable]

/-- Fields that a frame can hold spell the frame that holds them. -/
theorem spells_ofFields (h : Fields algorithm target key keyBits iv ivBits) :
    (ofFields algorithm target key keyBits iv ivBits).Spells
      (frame ⟨target, spelledDecryption algorithm key keyBits iv ivBits⟩) := by
  have hsum := h.body_le
  have hbody := toNat_number h.body_le
  have halgorithm : (UInt16.ofNat algorithm.toList.length).toNat = algorithm.toList.length :=
    toNat_number (by omega)
  have htarget : (UInt16.ofNat target.toList.length).toNat = target.toList.length :=
    toNat_number (by omega)
  have hkey := toNat_number h.keyBits_le
  have hiv := toNat_number h.ivBits_le
  exact
    { algorithm_length := by simp only [ofFields, Ascii.length_encode, halgorithm]
      algorithm_printable := Ascii.all_isPrintable_encode h.algorithm_printable
      target_length := by simp only [ofFields, Ascii.length_encode, htarget]
      target_printable := Ascii.all_isPrintable_encode h.target_printable
      target_ne := by simpa [ofFields, Ascii.encode] using h.target_ne
      key_length := by simp only [ofFields, hkey, h.key_length]
      iv_length := by simp only [ofFields, hiv, h.iv_length]
      bodyLength_eq := by
        simp only [ofFields, hbody, halgorithm, htarget, hkey, hiv]
        rw [h.key_length, h.iv_length]
      bytes_eq := by
        rw [frame_spelled h]
        simp only [bytes, ofFields, hbody, halgorithm, htarget, hkey, hiv] }

theorem parse_eq_ok_iff_spells :
    parse buffer = .ok l ↔ ∃ s : Spelling, s.Spells buffer ∧ l = s.link := by
  rw [parse_eq_ok_iff]
  constructor
  · rintro ⟨hv, hc, rfl⟩
    obtain ⟨algorithm, key, keyBits, iv, ivBits, hf, hl⟩ := exists_fields hv hc
    have hs := spells_ofFields hf
    rw [← hl] at hs
    exact ⟨_, hs, hl.trans (link_ofFields hf).symm⟩
  · rintro ⟨s, hs, rfl⟩
    exact ⟨hs.fields.valid, canonical_spelled, hs.frame_link.symm⟩

end Spelling

/-- Parsing accepts exactly the byte strings that have a spelling, as the links that they spell, and
refuses all others as malformed. The frame of a link that was read is what was read, so no two byte
strings are read as the same link. -/
theorem parse_iff_has_spelling :
    (∀ (buffer : Bytes) (l : Link),
      parse buffer = .ok l ↔ ∃ s : Spelling, s.Spells buffer ∧ l = s.link) ∧
    (∀ buffer : Bytes, (¬ ∃ s : Spelling, s.Spells buffer) ↔
      ∃ cause, parse buffer = .error (.format cause)) ∧
    (∀ (buffer : Bytes) (l : Link), parse buffer = .ok l → l.frame = buffer) ∧
    (∀ (buffer buffer' : Bytes) (l : Link),
      parse buffer = .ok l → parse buffer' = .ok l → buffer = buffer') := by
  have hframe (buffer : Bytes) (l : Link) (h : parse buffer = .ok l) : l.frame = buffer :=
    (parse_eq_ok_iff.mp h).2.2.symm
  refine ⟨fun buffer l => Spelling.parse_eq_ok_iff_spells, fun buffer => ⟨fun hnone => ?_, ?_⟩,
    hframe, fun buffer buffer' l h h' => (hframe buffer l h).symm.trans (hframe buffer' l h')⟩
  · cases hparse : parse buffer with
    | ok l =>
      obtain ⟨s, hs, -⟩ := Spelling.parse_eq_ok_iff_spells.mp hparse
      exact absurd ⟨s, hs⟩ hnone
    | error e =>
      obtain ⟨cause, rfl⟩ := exists_format_of_parse hparse
      exact ⟨cause, rfl⟩
  · rintro ⟨cause, herror⟩ ⟨s, hs⟩
    rw [Spelling.parse_eq_ok_iff_spells.mpr ⟨s, hs, rfl⟩] at herror
    cases herror

/-- A key of thirteen bits has two bytes, and its frame is kept as it is. -/
theorem parse_iff_has_spelling_odd_bits :
    let s : Spelling := ⟨4, 1, 1, 13, 0, [65], [116], [1, 2], []⟩
    parse s.bytes = .ok s.link ∧ s.link.frame = s.bytes := by
  intro s
  have hs : s.Spells s.bytes :=
    ⟨by decide, by decide, by decide, by decide, by decide, by decide, by decide, by decide, rfl⟩
  obtain ⟨hparse, -, hframe, -⟩ := parse_iff_has_spelling
  have h : parse s.bytes = .ok s.link := (hparse s.bytes s.link).mpr ⟨s, hs, rfl⟩
  exact ⟨h, hframe s.bytes s.link h⟩

end ContentAddressed.Link
