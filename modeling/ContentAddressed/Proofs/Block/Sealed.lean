import ContentAddressed.Block.Sealed
import ContentAddressed.Proofs.Cipher.Mode
import ContentAddressed.Proofs.Link.Valid

/-!
# An encrypted block and the block in it

The link of an encrypted block names the ciphertext, fits a frame, and deciphers the ciphertext to
the frame of the block that went in.
-/

namespace ContentAddressed

namespace CryptoConfig

theorem transformation_eq_ok_iff {c : CryptoConfig} {t : Transformation} :
    c.transformation = .ok t ↔ (c.keyBits = 128 ∨ c.keyBits = 192 ∨ c.keyBits = 256) ∧
      Transformation.parse c.cipher = .ok t := by
  simp only [transformation, validate, Result.bind_eq_ok_iff, Result.mapError_eq_ok_iff]
  by_cases hbits : c.keyBits = 128 ∨ c.keyBits = 192 ∨ c.keyBits = 256
  · simp [hbits]
  · simp [hbits]

theorem keyBytes_eq {c : CryptoConfig} {t : Transformation} (h : c.transformation = .ok t) :
    c.keyBytes = 16 ∨ c.keyBytes = 24 ∨ c.keyBytes = 32 := by
  obtain ⟨hbits, -⟩ := transformation_eq_ok_iff.mp h
  rw [keyBytes]
  omega

end CryptoConfig

/-- A link deciphers with the key that it carries, and what it deciphers has to be a frame. -/
theorem Link.decrypt_eq_ok_iff {l : Link} {ciphertext : Bytes} {b : Block} :
    l.decrypt ciphertext = .ok b ↔
      ∃ d ∈ l.decryption, d.key ≠ [] ∧ ∃ t plain, d.transformation = .ok t ∧
        t.decrypt d.key d.iv ciphertext = .ok plain ∧
        Block.parse (l.plaintextAlgorithm d.key plain) plain = .ok b := by
  rw [decrypt]
  cases l.decryption with
  | none => simp
  | some d =>
    by_cases hkey : d.key = []
    · simp [hkey]
    · simp [hkey, List.isEmpty_iff, Result.bind_eq_ok_iff, Result.mapError_eq_ok_iff]

namespace SealedBlock

/-- An encrypted block whose link opens it to a block. -/
structure Encloses (e : SealedBlock) (b : Block) : Prop where
  isOf_ciphertext : e.name.isOf e.ciphertext
  target_eq : e.link.target = e.name.encode
  valid : e.link.Valid
  canonical : e.link.Canonical
  hasKey : e.link.hasKey
  decrypt_eq : ∃ a, e.link.decrypt e.ciphertext = Block.parse a b.frame

theorem Draft.build_eq_ok_iff {ciphertext : Bytes} {name : Fingerprint} {link : Link}
    {plain : Option Fingerprint} {e : SealedBlock} :
    Draft.build ⟨some ciphertext, some name, some link, plain⟩ = .ok e ↔
      e = ⟨ciphertext, name, link, plain⟩ ∧ name.isOf ciphertext ∧ link.target = name.encode := by
  simp only [build, require, Result.bind_eq_ok_iff, Except.ok.injEq, exists_eq_left']
  by_cases hname : name.isOf ciphertext
  · by_cases htarget : link.target = name.encode
    · simp [hname, htarget, eq_comm]
    · simp [hname, htarget]
  · simp [hname]

end SealedBlock

namespace Block

variable {b : Block} {config : CryptoConfig} {e : SealedBlock}

def convergentKey (b : Block) (config : CryptoConfig) : Bytes :=
  b.fingerprint.digest.take config.keyBytes

theorem length_convergentKey (h : config.keyBytes ≤ b.fingerprint.digest.length) :
    (b.convergentKey config).length = config.keyBytes := by
  rw [convergentKey, List.length_take]
  omega

/-- What an encryption is: accepted settings, a digest long enough for the key, a ciphertext that is
named by its own fingerprint, and a link to that name with the key. -/
theorem encrypt_eq_ok_iff :
    b.encrypt config = .ok e ↔ ∃ t, config.transformation = .ok t ∧
      config.keyBytes ≤ b.fingerprint.digest.length ∧
      t.encrypt (b.convergentKey config) [] b.frame = .ok e.ciphertext ∧
      e.name = Fingerprint.of config.digest e.ciphertext ∧
      Link.Draft.build ⟨some e.name.encode, some ⟨t.name, b.convergentKey config, []⟩⟩ =
        .ok e.link ∧
      e.plaintextName = some b.fingerprint := by
  simp only [encrypt, Result.bind_eq_ok_iff, Result.guard_eq_ok_iff, Result.mapError_eq_ok_iff,
    SealedBlock.Draft.build_eq_ok_iff]
  constructor
  · rintro ⟨t, ht, hlong, ciphertext, hc, link, hlink, rfl, -, -⟩
    exact ⟨t, ht, by omega, hc, rfl, hlink, rfl⟩
  · obtain ⟨ciphertext, name, link, plain⟩ := e
    rintro ⟨t, ht, hlong, hc, hname, hlink, hplain⟩
    simp only at hname hlink hplain
    subst hname hplain
    exact ⟨t, ht, by omega, ciphertext, hc, link, hlink, rfl, Fingerprint.isOf_of _ _,
      (Link.Draft.build_eq_ok_iff.mp hlink).2.2.1⟩

theorem exists_of_encrypt (h : b.encrypt config = .ok e) :
    ∃ t key ciphertext, config.transformation = .ok t ∧ key ≠ [] ∧
      t.encrypt key [] b.frame = .ok ciphertext ∧
      e.ciphertext = ciphertext ∧ e.name = Fingerprint.of config.digest ciphertext ∧
      Link.Draft.build ⟨some e.name.encode, some ⟨t.name, key, []⟩⟩ = .ok e.link := by
  obtain ⟨t, ht, hlong, hc, hname, hlink, -⟩ := encrypt_eq_ok_iff.mp h
  refine ⟨t, _, _, ht, ?_, hc, rfl, hname, hlink⟩
  have hbytes := config.keyBytes_eq ht
  rw [← List.length_pos_iff, length_convergentKey hlong]
  omega

/-- The carried link deciphers the ciphertext to the frame of the block, and names it with the
algorithm that it finds for the key. -/
theorem decrypt_of_encrypt (h : b.encrypt config = .ok e) :
    e.decrypt = parse (e.link.plaintextAlgorithm (b.convergentKey config) b.frame) b.frame := by
  obtain ⟨t, ht, hlong, hc, -, hlink, -⟩ := encrypt_eq_ok_iff.mp h
  obtain ⟨-, -, -, -, d, hd, hdec⟩ := Link.Draft.build_eq_ok_iff.mp hlink
  obtain ⟨-, -, -, rfl⟩ := Link.KeyMaterial.build_eq_ok_iff.mp hd
  have hname : t.name ≠ "" := by cases t <;> decide
  have hkey : b.convergentKey config ≠ [] := by
    have hbytes := config.keyBytes_eq ht
    rw [← List.length_pos_iff, length_convergentKey hlong]
    omega
  simp only [SealedBlock.decrypt, Link.decrypt, hdec, List.isEmpty_iff, if_neg hkey,
    Decryption.transformation, if_neg hname, Transformation.parse_name]
  change ((t.decrypt (b.convergentKey config) [] e.ciphertext).mapError .decryption >>= fun frame =>
    parse (e.link.plaintextAlgorithm (b.convergentKey config) frame) frame) = _
  rw [Transformation.decrypt_of_encrypt hc]
  rfl

theorem encloses_of_encrypt (h : b.encrypt config = .ok e) : e.Encloses b := by
  obtain ⟨t, key, ciphertext, -, hkey, hc, rfl, hname, hlink⟩ := exists_of_encrypt h
  obtain ⟨-, -, htarget, -, d, hd, hdec⟩ := Link.Draft.build_eq_ok_iff.mp hlink
  obtain ⟨-, -, -, rfl⟩ := Link.KeyMaterial.build_eq_ok_iff.mp hd
  refine ⟨?_, htarget, Link.Draft.valid_of_build hlink, ?_, ?_, _, decrypt_of_encrypt h⟩
  · rw [hname]
    exact Fingerprint.isOf_of _ _
  · refine Link.Draft.canonical_of_build hlink fun m hm hempty => ?_
    cases hm
    exact hkey hempty.2.1
  · simp [Link.hasKey, hdec, hkey]

theorem exists_encrypt {t : Transformation} (ht : config.transformation = .ok t)
    (hlong : config.keyBytes ≤ b.fingerprint.digest.length) : ∃ e, b.encrypt config = .ok e := by
  have hbytes := config.keyBytes_eq ht
  have hkey := length_convergentKey hlong
  obtain ⟨ciphertext, hc⟩ := t.exists_encrypt (hkey ▸ hbytes) b.frame
  obtain ⟨link, htarget, hlink⟩ := Link.exists_build_keyed
    (Fingerprint.of config.digest ciphertext) t (hkey ▸ (by omega : config.keyBytes ≤ 32))
  exact ⟨⟨ciphertext, Fingerprint.of config.digest ciphertext, link, some b.fingerprint⟩,
    encrypt_eq_ok_iff.mpr ⟨t, ht, hlong, hc, rfl, hlink, rfl⟩⟩

end Block

end ContentAddressed
