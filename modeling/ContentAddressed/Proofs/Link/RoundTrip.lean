import ContentAddressed.Proofs.Link.Valid

/-!
# Links through their frames

Three empty fields of a frame say that a link has no parameters. A draft may ask for parameters that
are all empty, and these are lost; everything else that can be built is read back as it is.
-/

namespace ContentAddressed.Link

variable {l : Link}

/-- The link that is read from the frame of a link: the same one, but without parameters where these
are all empty. -/
def readBack (l : Link) : Link :=
  ⟨l.target, l.decryption.bind fun d =>
    spelledDecryption d.algorithm d.key d.keyBits d.iv d.ivBits⟩

theorem parse_frame (h : l.Valid) : parse l.frame = .ok l.readBack := by
  obtain ⟨target, decryption⟩ := l
  cases decryption with
  | none =>
    refine parse_eq_ok_iff.mpr ⟨h, ?_, rfl⟩
    rintro d ⟨⟩
  | some d =>
    obtain ⟨hne, hprint, hd, hbody⟩ := h
    obtain ⟨ha, hkeyBits, hkey, hivBits, hiv⟩ := hd d rfl
    have hf : Fields d.algorithm target d.key d.keyBits d.iv d.ivBits :=
      ⟨ha, hne, hprint, hkeyBits, hkey, hivBits, hiv, hbody⟩
    exact parse_eq_ok_iff.mpr ⟨hf.valid, canonical_spelled, (frame_spelled hf).symm⟩

/-- Nothing is lost of a link whose parameters are not all empty. -/
theorem readBack_eq_self_iff : l.readBack = l ↔ l.Canonical := by
  constructor
  · intro h
    have hcanonical : l.readBack.Canonical := by
      intro d hd
      obtain ⟨e, -, he⟩ := Option.bind_eq_some_iff.mp hd
      have hspelled : (Link.mk l.target (spelledDecryption e.algorithm e.key e.keyBits e.iv
        e.ivBits)).Canonical := canonical_spelled
      exact hspelled d he
    rwa [h] at hcanonical
  · intro h
    obtain ⟨target, decryption⟩ := l
    cases decryption with
    | none => rfl
    | some d => rw [readBack, Option.bind_some, spelledDecryption, if_neg (h d rfl)]

/-- A built link has parameters that are all empty exactly if its draft asks for such. -/
theorem Draft.canonical_iff_of_build {d : Draft} (h : d.build = .ok l) :
    l.Canonical ↔ ∀ m ∈ d.material, ¬ (m.algorithm = "" ∧ m.key = [] ∧ m.iv = []) := by
  refine ⟨fun hcanonical m hm hempty => ?_, canonical_of_build h⟩
  rw [exists_target h] at h
  obtain ⟨-, -, -, -, hmaterial⟩ := build_eq_ok_iff.mp h
  rw [hm] at hmaterial
  obtain ⟨e, he, hl⟩ := hmaterial
  obtain ⟨-, -, -, rfl⟩ := KeyMaterial.build_eq_ok_iff.mp he
  exact hcanonical _ hl hempty

theorem canonical_withKey {k : Link} {key : SecretKey} (h : k.withKey key = .ok l) :
    l.Canonical := by
  refine Draft.canonical_of_build h fun m hm hempty => ?_
  obtain rfl := Option.some.inj hm
  have hname : key.cipher.name ≠ "" := by cases key.cipher <;> decide
  exact hname hempty.1

/-- A built link is read back from its frame, except for parameters that are all empty. So the links
with one frame differ in such parameters only, and a link with a key comes back as it is. -/
theorem frame_reads_back {d : Draft} (h : d.build = .ok l) :
    parse l.frame = .ok l.readBack ∧
    (parse l.frame = .ok l ↔ ∀ m ∈ d.material, ¬ (m.algorithm = "" ∧ m.key = [] ∧ m.iv = [])) ∧
    (∀ (d' : Draft) (l' : Link), d'.build = .ok l' → l.frame = l'.frame →
      l.readBack = l'.readBack) ∧
    ∀ (k : Link) (key : SecretKey), k.withKey key = .ok l → parse l.frame = .ok l := by
  have hparse := parse_frame (Draft.valid_of_build h)
  refine ⟨hparse, ?_, fun d' l' h' hframe => ?_, fun k key hkey => ?_⟩
  · rw [hparse, Except.ok.injEq, readBack_eq_self_iff, Draft.canonical_iff_of_build h]
  · rw [hframe, parse_frame (Draft.valid_of_build h')] at hparse
    exact (Except.ok.inj hparse).symm
  · rw [hparse, readBack_eq_self_iff.mpr (canonical_withKey hkey)]

/-- An initialization vector alone keeps parameters from being lost. -/
theorem frame_reads_back_iv :
    let l : Link := ⟨"t", some ⟨"", [], 0, [7], 8⟩⟩
    Draft.build ⟨some "t", some ⟨"", [], [7]⟩⟩ = .ok l ∧ parse l.frame = .ok l := by
  intro l
  have hbuild : Draft.build ⟨some "t", some ⟨"", [], [7]⟩⟩ = .ok l := by decide
  refine ⟨hbuild, (frame_reads_back hbuild).2.1.mpr ?_⟩
  rintro m ⟨⟩
  simp

/-- Parameters that are all empty have the frame of a link without any. -/
theorem empty_parameters_are_lost :
    let l : Link := ⟨"t", some ⟨"", [], 0, [], 0⟩⟩
    Draft.build ⟨some "t", some ⟨"", [], []⟩⟩ = .ok l ∧
      Draft.build ⟨some "t", none⟩ = .ok ⟨"t", none⟩ ∧
      l.frame = frame ⟨"t", none⟩ ∧ l ≠ ⟨"t", none⟩ ∧ parse l.frame = .ok ⟨"t", none⟩ := by
  decide

end ContentAddressed.Link
