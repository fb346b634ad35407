import ContentAddressed.Proofs.Block.RoundTrip
import ContentAddressed.Proofs.Block.Sealed

/-!
# Convergent encryption is undone by the carried link

A block encrypts exactly when the settings are accepted and its digest is long enough for the key.
The link of the encrypted block gives the block back. The key also tells which algorithm named it,
unless the digest of the frame under another algorithm starts with the same bytes.
-/

namespace ContentAddressed

namespace Link

theorem derivedFrom_iff {key plaintext : Bytes} {a : DigestAlgorithm} :
    derivedFrom key plaintext a ↔ key <+: a.digest plaintext := by
  simp only [derivedFrom, Bool.and_eq_true, decide_eq_true_eq, beq_iff_eq]
  constructor
  · rintro ⟨-, htake⟩
    exact htake ▸ List.take_prefix _ _
  · intro h
    have hlen := h.length_le
    rw [DigestAlgorithm.length_digest] at hlen
    exact ⟨hlen, (List.prefix_iff_eq_take.mp h).symm⟩

/-- A key that is the start of the digest under one algorithm only tells this algorithm. -/
theorem plaintextAlgorithm_eq {l : Link} {key plaintext : Bytes} {a : DigestAlgorithm}
    (hkey : key <+: a.digest plaintext) (hother : ∀ a', a' ≠ a → ¬ key <+: a'.digest plaintext) :
    l.plaintextAlgorithm key plaintext = a := by
  let tried := l.digestAlgorithm :: DigestAlgorithm.all.filter (· ≠ l.digestAlgorithm)
  have hmem : a ∈ tried := by
    by_cases ha : a = l.digestAlgorithm
    · simp [tried, ha]
    · have hall : a ∈ DigestAlgorithm.all := by cases a <;> decide
      simp [tried, ha, hall]
  change (tried.find? (derivedFrom key plaintext)).getD _ = a
  cases hfind : tried.find? (derivedFrom key plaintext) with
  | none => exact absurd (derivedFrom_iff.mpr hkey) (List.find?_eq_none.mp hfind a hmem)
  | some a' =>
    have hfound := derivedFrom_iff.mp (List.find?_some hfind)
    by_contra hne
    exact hother a' hne hfound

end Link

namespace Block

/-- The ways to a block. -/
inductive Sourced : Block → Prop where
  | parsed {a : DigestAlgorithm} {frame : Bytes} {b : Block} (h : parse a frame = .ok b) : Sourced b
  | built {d : Draft} {filler : Bytes} {b : Block} (h : d.build filler = .ok b) : Sourced b

theorem Sourced.fingerprint_eq {b : Block} (h : b.Sourced) :
    b.fingerprint = Fingerprint.of b.fingerprint.algorithm b.frame := by
  cases h with
  | parsed h =>
    obtain ⟨-, -, -, -, -, -, -, -, hframe, hname⟩ := parse_eq_ok_iff.mp h
    rw [hname, hframe]
    rfl
  | built h =>
    obtain ⟨-, -, hname, -⟩ := Draft.frame_of_build h
    rw [hname]
    rfl

/-- The algorithm matters for the name only. -/
theorem parse_of_parse {a : DigestAlgorithm} {frame : Bytes} {b : Block}
    (h : parse a frame = .ok b) (a' : DigestAlgorithm) :
    parse a' frame = .ok { b with fingerprint := Fingerprint.of a' frame } := by
  obtain ⟨e, padding, he, he', hlen, hcount, hls, hframe, hb, -⟩ := parse_eq_ok_iff.mp h
  exact parse_eq_ok_iff.mpr ⟨e, padding, he, he', hlen, hcount, hls, hframe, hb, rfl⟩

variable {b : Block} {config : CryptoConfig} {e : SealedBlock}

theorem exists_encrypt_iff :
    (∃ e, b.encrypt config = .ok e) ↔
      (config.keyBits = 128 ∨ config.keyBits = 192 ∨ config.keyBits = 256) ∧
      (∃ t, Transformation.parse config.cipher = .ok t) ∧
      config.keyBits / 8 ≤ b.fingerprint.digest.length := by
  constructor
  · rintro ⟨e, he⟩
    obtain ⟨t, ht, hlong, -⟩ := encrypt_eq_ok_iff.mp he
    obtain ⟨hbits, hcipher⟩ := CryptoConfig.transformation_eq_ok_iff.mp ht
    rw [CryptoConfig.keyBytes] at hlong
    exact ⟨hbits, ⟨t, hcipher⟩, by omega⟩
  · rintro ⟨hbits, ⟨t, hcipher⟩, hlong⟩
    refine exists_encrypt (CryptoConfig.transformation_eq_ok_iff.mpr ⟨hbits, hcipher⟩) ?_
    rw [CryptoConfig.keyBytes]
    omega

/-- Encrypting a block and opening it again. What encrypts is named by its ciphertext and opens, by
the link that it carries, to the same block with the same frame. The block gets its own name back,
which is the one on record, unless the key fits the digest of the frame under another algorithm. -/
theorem encrypt_opened_by_link {b : Block} (hb : b.Sourced)
    (hback : ∃ a p, parse a b.frame = .ok p ∧ p.same b) (config : CryptoConfig) :
    ((∃ e, b.encrypt config = .ok e) ↔
      (config.keyBits = 128 ∨ config.keyBits = 192 ∨ config.keyBits = 256) ∧
      (∃ t, Transformation.parse config.cipher = .ok t) ∧
      config.keyBits / 8 ≤ b.fingerprint.digest.length) ∧
    ∀ e, b.encrypt config = .ok e →
      e.name.isOf e.ciphertext ∧ e.link.target = e.name.encode ∧
      ∃ d, e.decrypt = .ok d ∧ d.same b ∧ d.frame = b.frame ∧
        ((∀ a, a ≠ b.fingerprint.algorithm →
            ¬ b.fingerprint.digest.take (config.keyBits / 8) <+: a.digest b.frame) →
          d.name = b.name ∧ e.plaintextName.map Fingerprint.encode = some d.name) := by
  refine ⟨exists_encrypt_iff, fun e he => ?_⟩
  have hencloses := encloses_of_encrypt he
  obtain ⟨t, ht, hlong, -, -, -, hrecord⟩ := encrypt_eq_ok_iff.mp he
  obtain ⟨a, p, hp, hsame⟩ := hback
  obtain ⟨-, -, -, -, -, -, -, -, hframe, -⟩ := parse_eq_ok_iff.mp hp
  refine ⟨hencloses.isOf_ciphertext, hencloses.target_eq, _,
    (decrypt_of_encrypt he).trans (parse_of_parse hp _), hsame, hframe, fun hother => ?_⟩
  have hfp := hb.fingerprint_eq
  have hbytes : config.keyBits / 8 = config.keyBytes := by
    obtain ⟨hbits, -⟩ := CryptoConfig.transformation_eq_ok_iff.mp ht
    rw [CryptoConfig.keyBytes]
    omega
  have hkey : b.convergentKey config <+: b.fingerprint.algorithm.digest b.frame := by
    have hdigest : b.fingerprint.digest = b.fingerprint.algorithm.digest b.frame :=
      congrArg Fingerprint.digest hfp
    rw [convergentKey, hdigest]
    exact List.take_prefix _ _
  have halg : e.link.plaintextAlgorithm (b.convergentKey config) b.frame =
      b.fingerprint.algorithm := by
    refine Link.plaintextAlgorithm_eq hkey fun a ha => ?_
    rw [convergentKey, ← hbytes]
    exact hother a ha
  have hname : Fingerprint.of (e.link.plaintextAlgorithm (b.convergentKey config) b.frame) b.frame =
      b.fingerprint := by
    rw [halg, ← hfp]
  rw [hrecord]
  simp [name, hname]

/-- A block that is named by another algorithm than its ciphertext. -/
theorem encrypt_opened_by_link_sha1 :
    let frame : Bytes := magic ++ [4, 0, 16, 0, 0, 0, 0, 0, 0, 0]
    let config : CryptoConfig := { cipher := "aes/cbc" }
    ∃ b, parse .sha1 frame = .ok b ∧ b.Sourced ∧ (∃ a p, parse a b.frame = .ok p ∧ p.same b) ∧
      (∀ a, a ≠ b.fingerprint.algorithm →
        ¬ b.fingerprint.digest.take (config.keyBits / 8) <+: a.digest b.frame) ∧
      ∃ e, b.encrypt config = .ok e ∧ e.name.algorithm = .sha256 ∧
        ∃ d, e.decrypt = .ok d ∧ d.same b ∧ d.frame = b.frame ∧ d.name = b.name ∧
          e.plaintextName.map Fingerprint.encode = some d.name := by
  intro frame config
  let b : Block := ⟨[], [], frame, Fingerprint.of .sha1 frame⟩
  have hparse : parse .sha1 frame = .ok b :=
    parse_eq_ok_iff.mpr ⟨4, [], by decide, by decide, by decide, by decide, by simp [b], by decide,
      rfl, rfl⟩
  have hapart : ∀ a, a ≠ b.fingerprint.algorithm →
      ¬ b.fingerprint.digest.take (config.keyBits / 8) <+: a.digest b.frame := by
    have hothers : ∀ a ∈ [DigestAlgorithm.sha256, .sha384, .sha512],
        ¬ (DigestAlgorithm.sha1.digest frame).take 16 <+: a.digest frame := by decide +kernel
    have hbytes : config.keyBits / 8 = 16 := by decide
    intro a ha
    rw [hbytes]
    refine hothers a ?_
    cases a with
    | sha1 => exact absurd rfl ha
    | sha256 => decide
    | sha384 => decide
    | sha512 => decide
  have hback : ∃ a p, parse a b.frame = .ok p ∧ p.same b := ⟨.sha1, b, hparse, rfl⟩
  have hlong : config.keyBits / 8 ≤ b.fingerprint.digest.length := by
    rw [Fingerprint.length_digest]
    decide
  obtain ⟨hencrypts, hopens⟩ := encrypt_opened_by_link (.parsed hparse) hback config
  obtain ⟨e, he⟩ := hencrypts.mpr ⟨by decide, ⟨.chaining, by decide⟩, hlong⟩
  obtain ⟨-, -, d, hd, hsame, hframe, hnames⟩ := hopens e he
  obtain ⟨hname, hrecord⟩ := hnames hapart
  obtain ⟨_, -, -, -, hnamed, -⟩ := encrypt_eq_ok_iff.mp he
  exact ⟨b, hparse, .parsed hparse, hback, hapart, e, he, by rw [hnamed]; rfl, d, hd, hsame, hframe,
    hname, hrecord⟩

end Block

end ContentAddressed
