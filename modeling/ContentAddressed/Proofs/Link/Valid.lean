import ContentAddressed.Proofs.Fingerprint
import ContentAddressed.Proofs.Link.Frame
import ContentAddressed.Proofs.Result

/-!
# Where links come from

Every way to a link gives one that fits its frame. The frame reads back as the link itself wherever
the link came from a fingerprint, from a frame, or from a draft that does not ask for decryption
with three empty fields.
-/

namespace ContentAddressed.Link

theorem valid_ofFingerprint (fp : Fingerprint) : (ofFingerprint fp).Valid := by
  refine ⟨fp.encode_ne_empty, fp.printable_encode, ?_, ?_⟩
  · intro d hd
    simp [ofFingerprint] at hd
  · have := fp.length_encode_le
    simp only [ofFingerprint, bodyLength]
    omega

theorem canonical_ofFingerprint (fp : Fingerprint) : (ofFingerprint fp).Canonical := by
  intro d hd
  simp [ofFingerprint] at hd

theorem checkText_eq_ok_iff {what text : String} {u : Unit} :
    checkText what text = .ok u ↔ Ascii.printable text := by
  by_cases h : Ascii.printable text <;> simp [checkText, h]

theorem fieldBits_eq_ok_iff {what : String} {size bits : Nat} :
    fieldBits what size = .ok bits ↔ size * 8 ≤ 65535 ∧ bits = size * 8 := by
  by_cases h : size * 8 ≤ 65535
  · simp [fieldBits, h, eq_comm]
  · simp [fieldBits, h]

theorem checkBody_eq_ok_iff {l k : Link} :
    checkBody l = .ok k ↔ l.bodyLength ≤ 65535 ∧ k = l := by
  by_cases h : l.bodyLength ≤ 65535
  · simp [checkBody, h, eq_comm]
  · simp [checkBody, h]

theorem KeyMaterial.build_eq_ok_iff {m : KeyMaterial} {d : Decryption} :
    m.build = .ok d ↔ Ascii.printable m.algorithm ∧ m.key.length * 8 ≤ 65535 ∧
      m.iv.length * 8 ≤ 65535 ∧
      d = ⟨m.algorithm, m.key, m.key.length * 8, m.iv, m.iv.length * 8⟩ := by
  simp only [build, Result.bind_eq_ok_iff, checkText_eq_ok_iff, fieldBits_eq_ok_iff]
  constructor
  · rintro ⟨_, hp, _, ⟨hk, rfl⟩, _, ⟨hi, rfl⟩, h⟩
    exact ⟨hp, hk, hi, (Except.ok.inj h).symm⟩
  · rintro ⟨hp, hk, hi, rfl⟩
    exact ⟨(), hp, _, ⟨hk, rfl⟩, _, ⟨hi, rfl⟩, rfl⟩

theorem KeyMaterial.valid_of_build {m : KeyMaterial} {d : Decryption} (h : m.build = .ok d) :
    d.Valid := by
  obtain ⟨hp, hk, hi, rfl⟩ := build_eq_ok_iff.mp h
  refine ⟨hp, hk, ?_, hi, ?_⟩
  · change m.key.length = (m.key.length * 8 + 7) / 8
    omega
  · change m.iv.length = (m.iv.length * 8 + 7) / 8
    omega

/-- What a draft needs for a link: printable texts, and fields that fit a frame. -/
theorem Draft.build_eq_ok_iff {target : String} {material : Option KeyMaterial} {l : Link} :
    Draft.build ⟨some target, material⟩ = .ok l ↔
      target ≠ "" ∧ Ascii.printable target ∧ l.target = target ∧ l.bodyLength ≤ 65535 ∧
        match material with
        | none => l.decryption = none
        | some m => ∃ d, m.build = .ok d ∧ l.decryption = some d := by
  obtain ⟨t, decryption⟩ := l
  by_cases ht : target = ""
  · simp [build, ht]
  · cases material with
    | none =>
      simp only [build, Result.bind_eq_ok_iff, checkText_eq_ok_iff, checkBody_eq_ok_iff]
      constructor
      · rintro ⟨_, hp, hb, he⟩
        obtain ⟨rfl, rfl⟩ := Link.mk.inj he
        exact ⟨ht, hp, rfl, hb, rfl⟩
      · rintro ⟨-, hp, rfl, hb, rfl⟩
        exact ⟨(), hp, hb, rfl⟩
    | some m =>
      simp only [build, Result.bind_eq_ok_iff, checkText_eq_ok_iff, checkBody_eq_ok_iff]
      constructor
      · rintro ⟨_, hp, d, hd, hb, he⟩
        obtain ⟨rfl, rfl⟩ := Link.mk.inj he
        exact ⟨ht, hp, rfl, hb, d, hd, rfl⟩
      · rintro ⟨-, hp, rfl, hb, d, hd, rfl⟩
        exact ⟨(), hp, d, hd, hb, rfl⟩

theorem Draft.exists_target {d : Draft} {l : Link} (h : d.build = .ok l) :
    d = ⟨some l.target, d.material⟩ := by
  obtain ⟨target, material⟩ := d
  cases target with
  | none => simp [build] at h
  | some t => rw [(build_eq_ok_iff.mp h).2.2.1]

theorem Draft.valid_of_build {d : Draft} {l : Link} (h : d.build = .ok l) : l.Valid := by
  rw [exists_target h] at h
  obtain ⟨hne, hp, -, hb, hm⟩ := build_eq_ok_iff.mp h
  refine ⟨hne, hp, ?_, hb⟩
  intro e he
  cases hmat : d.material with
  | none =>
    rw [hmat] at hm
    simp [hm] at he
  | some m =>
    rw [hmat] at hm
    obtain ⟨f, hf, hl⟩ := hm
    rw [hl, Option.mem_def, Option.some.injEq] at he
    exact he ▸ KeyMaterial.valid_of_build hf

theorem Draft.canonical_of_build {d : Draft} {l : Link} (h : d.build = .ok l)
    (hm : ∀ m ∈ d.material, ¬ (m.algorithm = "" ∧ m.key = [] ∧ m.iv = [])) : l.Canonical := by
  rw [exists_target h] at h
  obtain ⟨-, -, -, -, hmat⟩ := build_eq_ok_iff.mp h
  intro e he
  cases hd : d.material with
  | none =>
    rw [hd] at hmat
    simp [hmat] at he
  | some m =>
    rw [hd] at hmat
    obtain ⟨f, hf, hl⟩ := hmat
    obtain ⟨-, -, -, rfl⟩ := KeyMaterial.build_eq_ok_iff.mp hf
    rw [hl, Option.mem_def, Option.some.injEq] at he
    subst he
    exact hm m hd

/-- A name that is a fingerprint and a key of a transformation always fit a link. -/
theorem exists_build_keyed (fp : Fingerprint) (t : Transformation) {key : Bytes}
    (hkey : key.length ≤ 32) : ∃ link : Link, link.target = fp.encode ∧
      Draft.build ⟨some fp.encode, some ⟨t.name, key, []⟩⟩ = .ok link := by
  have hname : Ascii.printable t.name ∧ t.name.toList.length ≤ 20 := by cases t <;> decide
  have htarget := fp.length_encode_le
  refine ⟨⟨fp.encode, some ⟨t.name, key, key.length * 8, [], 0⟩⟩, rfl, ?_⟩
  refine Draft.build_eq_ok_iff.mpr ⟨fp.encode_ne_empty, fp.printable_encode, rfl, ?_, _,
    KeyMaterial.build_eq_ok_iff.mpr ⟨hname.1, ?_, ?_, rfl⟩, rfl⟩
  · simp only [bodyLength, List.length_nil]
    omega
  · simp only
    omega
  · simp

/-- The ways to a link that its frame preserves. -/
inductive Sourced : Link → Prop where
  | ofFingerprint (fp : Fingerprint) : Sourced (ofFingerprint fp)
  | parsed {buffer : Bytes} {l : Link} (h : parse buffer = .ok l) : Sourced l
  | built {d : Draft} {l : Link} (h : d.build = .ok l)
      (hm : ∀ m ∈ d.material, m.algorithm ≠ "" ∨ m.key ≠ [] ∨ m.iv ≠ []) : Sourced l

theorem Sourced.valid {l : Link} (h : Sourced l) : l.Valid := by
  cases h with
  | ofFingerprint fp => exact valid_ofFingerprint fp
  | parsed h => exact (parse_eq_ok_iff.mp h).1
  | built h hm => exact Draft.valid_of_build h

theorem Sourced.canonical {l : Link} (h : Sourced l) : l.Canonical := by
  cases h with
  | ofFingerprint fp => exact canonical_ofFingerprint fp
  | parsed h => exact (parse_eq_ok_iff.mp h).2.1
  | built h hm =>
    refine Draft.canonical_of_build h fun m hmem hempty => ?_
    rcases hm m hmem with ha | hk | hi
    · exact ha hempty.1
    · exact hk hempty.2.1
    · exact hi hempty.2.2

end ContentAddressed.Link
