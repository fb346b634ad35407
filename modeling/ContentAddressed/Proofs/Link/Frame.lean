import ContentAddressed.Link.Frame
import ContentAddressed.Proofs.Cursor

/-!
# Frames determine links, and links frames

Reading a link succeeds exactly where the frame of a valid link stands, and gives that link. A link
whose parameters are all empty has the frame of a link without any; `Canonical` leaves it out.
-/

namespace ContentAddressed.Link

/-- Parameters that are there are not all empty. -/
def Canonical (l : Link) : Prop :=
  ∀ d ∈ l.decryption, ¬ (d.algorithm = "" ∧ d.key = [] ∧ d.iv = [])

structure Fields (algorithm target : String) (key : Bytes) (keyBits : Nat) (iv : Bytes)
    (ivBits : Nat) : Prop where
  algorithm_printable : Ascii.printable algorithm
  target_ne : target ≠ ""
  target_printable : Ascii.printable target
  keyBits_le : keyBits ≤ 65535
  key_length : key.length = (keyBits + 7) / 8
  ivBits_le : ivBits ≤ 65535
  iv_length : iv.length = (ivBits + 7) / 8
  body_le : algorithm.toList.length + target.toList.length + key.length + iv.length ≤ 65535

variable {algorithm target : String} {key : Bytes} {keyBits : Nat} {iv : Bytes} {ivBits : Nat}

theorem bodyLength_spelled :
    bodyLength ⟨target, spelledDecryption algorithm key keyBits iv ivBits⟩ =
      algorithm.toList.length + target.toList.length + key.length + iv.length := by
  by_cases h : algorithm = "" ∧ key = [] ∧ iv = []
  · obtain ⟨rfl, rfl, rfl⟩ := h
    simp [bodyLength, spelledDecryption]
  · simp [bodyLength, spelledDecryption, h]

theorem frame_spelled (h : Fields algorithm target key keyBits iv ivBits) :
    frame ⟨target, spelledDecryption algorithm key keyBits iv ivBits⟩ =
      magic ++ Bytes.littleEndian 2
          (algorithm.toList.length + target.toList.length + key.length + iv.length) ++
        Bytes.littleEndian 2 algorithm.toList.length ++
        Bytes.littleEndian 2 target.toList.length ++ Bytes.littleEndian 2 keyBits ++
        Bytes.littleEndian 2 ivBits ++
        (Ascii.encode algorithm ++ (Ascii.encode target ++ (key ++ iv))) := by
  rw [frame, bodyLength_spelled]
  by_cases he : algorithm = "" ∧ key = [] ∧ iv = []
  · obtain ⟨rfl, rfl, rfl⟩ := he
    -- empty fields have no bits, so nothing is lost
    have hkey : keyBits = 0 := by
      have := h.key_length
      simp only [List.length_nil] at this
      omega
    have hiv : ivBits = 0 := by
      have := h.iv_length
      simp only [List.length_nil] at this
      omega
    simp [spelledDecryption, hkey, hiv]
  · simp [spelledDecryption, he]

theorem Fields.valid (h : Fields algorithm target key keyBits iv ivBits) :
    Valid ⟨target, spelledDecryption algorithm key keyBits iv ivBits⟩ := by
  refine ⟨h.target_ne, h.target_printable, ?_, ?_⟩
  · intro d hd
    by_cases he : algorithm = "" ∧ key = [] ∧ iv = []
    · simp [spelledDecryption, he] at hd
    · simp only [spelledDecryption, if_neg he, Option.mem_def, Option.some.injEq] at hd
      subst hd
      exact ⟨h.algorithm_printable, h.keyBits_le, h.key_length, h.ivBits_le, h.iv_length⟩
  · rw [bodyLength_spelled]
    exact h.body_le

theorem canonical_spelled :
    Canonical ⟨target, spelledDecryption algorithm key keyBits iv ivBits⟩ := by
  intro d hd
  by_cases he : algorithm = "" ∧ key = [] ∧ iv = []
  · simp [spelledDecryption, he] at hd
  · simp only [spelledDecryption, if_neg he, Option.mem_def, Option.some.injEq] at hd
    subst hd
    exact he

theorem exists_fields {l : Link} (hv : l.Valid) (hc : l.Canonical) :
    ∃ algorithm key keyBits iv ivBits, Fields algorithm l.target key keyBits iv ivBits ∧
      l = ⟨l.target, spelledDecryption algorithm key keyBits iv ivBits⟩ := by
  obtain ⟨target, decryption⟩ := l
  obtain ⟨hne, hprint, hd, hbody⟩ := hv
  cases decryption with
  | none =>
    refine ⟨"", [], 0, [], 0, ⟨by decide, hne, hprint, by simp, by simp, by simp, by simp, ?_⟩, ?_⟩
    · simpa [bodyLength] using hbody
    · simp [spelledDecryption]
  | some d =>
    obtain ⟨ha, hkb, hk, hib, hi⟩ := hd d rfl
    have he := hc d rfl
    exact ⟨d.algorithm, d.key, d.keyBits, d.iv, d.ivBits,
      ⟨ha, hne, hprint, hkb, hk, hib, hi, hbody⟩, by rw [spelledDecryption, if_neg he]⟩

theorem read_eq_ok_iff_fields {c c' : Cursor} {l : Link} :
    read c = .ok (l, c') ↔ ∃ algorithm target key keyBits iv ivBits,
      Fields algorithm target key keyBits iv ivBits ∧
      l = ⟨target, spelledDecryption algorithm key keyBits iv ivBits⟩ ∧ c.Passes l.frame c' := by
  simp only [read, Reader.bind_eq_ok_iff, Reader.magic_eq_ok_iff, Reader.number_eq_ok_iff,
    Reader.guard_eq_ok_iff, Reader.text_eq_ok_iff, Reader.take_eq_ok_iff, Reader.pure_eq_ok_iff,
    ne_eq, Decidable.not_not]
  constructor
  · rintro ⟨_, c₁, hm, body, c₂, ⟨hbody, h₁⟩, alen, c₃, ⟨halen, h₂⟩, tlen, c₄, ⟨htlen, h₃⟩,
      keyBits, c₅, ⟨hkb, h₄⟩, ivBits, c₆, ⟨hib, h₅⟩, hsum, algorithm, c₇, ⟨ha, hap, h₆⟩,
      target, c₈, ⟨ht, htp, h₇⟩, key, c₉, ⟨hk, h₈⟩, iv, c₁₀, ⟨hi, h₉⟩, hne, rfl, rfl⟩
    have hf : Fields algorithm target key keyBits iv ivBits :=
      ⟨hap, hne, htp, by omega, hk, by omega, hi, by omega⟩
    refine ⟨algorithm, target, key, keyBits, iv, ivBits, hf, rfl, ?_⟩
    rw [frame_spelled hf]
    have hbodyLength : body =
        algorithm.toList.length + target.toList.length + key.length + iv.length := by omega
    subst hbodyLength ha ht
    exact (((((hm.trans h₁).trans h₂).trans h₃).trans h₄).trans h₅).trans
      (h₆.trans (h₇.trans (h₈.trans h₉)))
  · rintro ⟨algorithm, target, key, keyBits, iv, ivBits, hf, rfl, hp⟩
    rw [frame_spelled hf] at hp
    simp only [Cursor.passes_append] at hp
    obtain ⟨c₆, ⟨c₅, ⟨c₄, ⟨c₃, ⟨c₂, ⟨c₁, hm, h₁⟩, h₂⟩, h₃⟩, h₄⟩, h₅⟩, c₇, h₆, c₈, h₇, c₉, h₈,
      h₉⟩ := hp
    have := hf.body_le
    have := hf.keyBits_le
    have := hf.ivBits_le
    have := hf.key_length
    have := hf.iv_length
    exact ⟨(), c₁, hm, _, c₂, ⟨by omega, h₁⟩, _, c₃, ⟨by omega, h₂⟩, _, c₄, ⟨by omega, h₃⟩,
      _, c₅, ⟨by omega, h₄⟩, _, c₆, ⟨by omega, h₅⟩, by omega, _, c₇,
      ⟨rfl, hf.algorithm_printable, h₆⟩, _, c₈, ⟨rfl, hf.target_printable, h₇⟩,
      _, c₉, ⟨hf.key_length, h₈⟩, _, _, ⟨hf.iv_length, h₉⟩, hf.target_ne, rfl, rfl⟩

/-- Reading succeeds exactly where the frame of a valid, canonical link stands. -/
theorem read_eq_ok_iff {c c' : Cursor} {l : Link} :
    read c = .ok (l, c') ↔ l.Valid ∧ l.Canonical ∧ c.Passes l.frame c' := by
  rw [read_eq_ok_iff_fields]
  constructor
  · rintro ⟨algorithm, target, key, keyBits, iv, ivBits, hf, rfl, hp⟩
    exact ⟨hf.valid, canonical_spelled, hp⟩
  · rintro ⟨hv, hc, hp⟩
    obtain ⟨algorithm, key, keyBits, iv, ivBits, hf, hl⟩ := exists_fields hv hc
    exact ⟨algorithm, l.target, key, keyBits, iv, ivBits, hf, hl, hp⟩

theorem length_frame (l : Link) : l.frame.length = l.byteLength := by
  obtain ⟨target, decryption⟩ := l
  cases decryption with
  | none =>
    simp [frame, byteLength, bodyLength, magic]
    omega
  | some d =>
    simp [frame, byteLength, bodyLength, magic]
    omega

/-- Parsing accepts exactly the frames of valid, canonical links. -/
theorem parse_eq_ok_iff {buffer : Bytes} {l : Link} :
    parse buffer = .ok l ↔ l.Valid ∧ l.Canonical ∧ buffer = l.frame := by
  have hread : parse buffer = .ok l ↔
      ∃ c' : Cursor, read ⟨0, buffer⟩ = .ok (l, c') ∧ c'.rest = [] := by
    change (read ⟨0, buffer⟩ >>= fun p => if p.2.rest.isEmpty then Except.ok p.1
      else .error (.format (.trailingBytes p.2.rest.length))) = .ok l ↔ _
    cases hr : read ⟨0, buffer⟩ with
    | error e => simp [bind, Except.bind]
    | ok p =>
      obtain ⟨k, d⟩ := p
      by_cases hd : d.rest = []
      · simp [bind, Except.bind, hd]
      · simp only [bind, Except.bind, List.isEmpty_iff, hd, if_false, reduceCtorEq, false_iff]
        rintro ⟨c', hc', hempty⟩
        simp only [Except.ok.injEq, Prod.mk.injEq] at hc'
        exact hd (hc'.2 ▸ hempty)
  rw [hread]
  constructor
  · rintro ⟨c', hr, hempty⟩
    obtain ⟨hv, hc, hp, -⟩ := read_eq_ok_iff.mp hr
    refine ⟨hv, hc, ?_⟩
    simpa [hempty] using hp
  · rintro ⟨hv, hc, rfl⟩
    refine ⟨⟨l.frame.length, []⟩, read_eq_ok_iff.mpr ⟨hv, hc, ?_⟩, rfl⟩
    simp [Cursor.Passes]

end ContentAddressed.Link
