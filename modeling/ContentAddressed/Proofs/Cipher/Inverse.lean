import ContentAddressed.Proofs.Cipher.Mode
import Mathlib.Data.Finite.Prod
import Mathlib.Data.Fintype.EquivFin

/-!
# Texts and ciphertexts determine each other

There are finitely many blocks, so what undoes a permutation on one side undoes it on the other.
With strict padding no ciphertext but its own deciphers to a text, in either mode. Whether the
lengths of key and initial vector fit is found out before the text is looked at.
-/

namespace ContentAddressed

namespace Aes

instance : Finite Word :=
  have : Finite UInt8 := .of_injective UInt8.toFin fun _ _ => UInt8.toFin_inj.mp
  .of_injective (fun w : Word => (w.b0, w.b1, w.b2, w.b3)) fun v w h => by
    cases v
    cases w
    simpa using h

instance : Finite State :=
  .of_injective (fun s : State => (s.c0, s.c1, s.c2, s.c3)) fun s t h => by
    cases s
    cases t
    simpa using h

end Aes

namespace BlockPermutation

variable {p : BlockPermutation}

/-- Forward is injective on finitely many blocks, so it reaches all of them. -/
theorem Inverts.forward_backward (hp : p.Inverts) (s : Aes.State) :
    p.forward (p.backward s) = s := by
  have hleft : Function.LeftInverse p.backward p.forward := hp
  have hsurjective := Finite.surjective_of_injective hleft.injective
  exact hleft.rightInverse_of_surjective hsurjective s

theorem unchain_cons (p : BlockPermutation) (iv c : Aes.State) (cs : List Aes.State) :
    p.unchain iv (c :: cs) = (p.backward c).xor iv :: p.unchain c cs := rfl

theorem chain_unchain (hp : p.Inverts) (iv : Aes.State) (cs : List Aes.State) :
    p.chain iv (p.unchain iv cs) = cs := by
  induction cs generalizing iv with
  | nil => rfl
  | cons c cs ih =>
    have hc : p.forward (((p.backward c).xor iv).xor iv) = c := by
      rw [Aes.State.xor_xor_self, hp.forward_backward]
    rw [unchain_cons, chain, hc, ih]

@[simp] theorem length_unchain (p : BlockPermutation) (iv : Aes.State) (cs : List Aes.State) :
    (p.unchain iv cs).length = cs.length := by
  simp [unchain]

theorem length_counter (p : BlockPermutation) (iv : Aes.State) (text : Bytes) :
    (p.counter iv text).length = text.length := by
  rw [counter, List.length_zipWith, length_keyStream]
  omega

end BlockPermutation

/-- Padding is strict: a whole number of blocks is the padded form of what is left of it. -/
theorem padBlock_of_unpadBlock? {padded text : Bytes} (hwhole : padded.length % 16 = 0)
    (h : unpadBlock? padded = some text) : padBlock text = padded := by
  rw [unpadBlock?] at h
  split at h
  · cases h
  · next b _ =>
    dsimp only at h
    split at h
    · next hok =>
      obtain ⟨hpos, hle, hfits, hall⟩ := hok
      obtain rfl := Option.some.inj h
      have hlength : (padded.take (padded.length - b.toNat)).length =
          padded.length - b.toNat := by
        rw [List.length_take]
        omega
      -- one to sixteen bytes fill up a block, so their number is known from what is left
      have hnumber : 16 - (padded.length - b.toNat) % 16 = b.toNat := by omega
      have htail : padded.drop (padded.length - b.toNat) = List.replicate b.toNat b := by
        refine List.eq_replicate_iff.mpr ⟨?_, by simpa using hall⟩
        rw [List.length_drop]
        omega
      rw [padBlock, hlength, hnumber, UInt8.ofNat_toNat, ← htail, List.take_append_drop]
    · cases h

namespace Transformation

def encipher (t : Transformation) (p : BlockPermutation) (start : Aes.State) (text : Bytes) :
    Bytes :=
  match t with
  | counter => p.counter start text
  | chaining => (p.chain start (textBlocks (padBlock text))).flatMap Aes.State.bytes

def decipher (t : Transformation) (p : BlockPermutation) (start : Aes.State) (text : Bytes) :
    Except CipherError Bytes :=
  match t with
  | counter => .ok (p.counter start text)
  | chaining =>
    if text.length % 16 ≠ 0 then .error (.badPadding (.partialBlock text.length))
    else
      match unpadBlock? ((p.unchain start (textBlocks text)).flatMap Aes.State.bytes) with
      | some plain => .ok plain
      | none => .error (.badPadding .malformed)

def ciphertextLength : Transformation → Nat → Nat
  | counter, n => n
  | chaining, n => (n / 16 + 1) * 16

/-- Whether an initial vector is empty or one block, and a key is one of those that AES has. -/
def Fits (key iv : Bytes) : Prop :=
  (iv.length = 0 ∨ iv.length = 16) ∧ (key.length = 16 ∨ key.length = 24 ∨ key.length = 32)

variable {t : Transformation} {p : BlockPermutation} {key iv : Bytes}

theorem exists_initialBlock (h : iv.length = 0 ∨ iv.length = 16) :
    ∃ start, initialBlock iv = .ok start := by
  rw [initialBlock]
  rcases h with h | h <;> simp [h]

theorem exists_of_fits (h : Fits key iv) :
    ∃ p start, p.Inverts ∧ ∀ t : Transformation,
      (∀ text, t.encrypt key iv text = .ok (t.encipher p start text)) ∧
      ∀ text, t.decrypt key iv text = t.decipher p start text := by
  obtain ⟨hiv, hkey⟩ := h
  obtain ⟨start, hstart⟩ := exists_initialBlock hiv
  obtain ⟨p, hp⟩ : ∃ p, permutation key = .ok p := ⟨_, if_pos hkey⟩
  refine ⟨p, start, permutation_inverts hp, fun t => ⟨fun text => ?_, fun text => ?_⟩⟩
  · rw [encrypt, hstart, hp]
    cases t <;> rfl
  · rw [decrypt, hstart, hp]
    cases t <;> rfl

/-- Lengths that do not fit are the reason for a failure, whatever the text is. -/
theorem exists_of_not_fits (h : ¬ Fits key iv) :
    ∃ cause, ∀ (t : Transformation) (text : Bytes),
      t.encrypt key iv text = .error (.keyLength cause) ∧
      t.decrypt key iv text = .error (.keyLength cause) := by
  by_cases hiv : iv.length = 0 ∨ iv.length = 16
  · have hkey : ¬ (key.length = 16 ∨ key.length = 24 ∨ key.length = 32) := fun hkey => h ⟨hiv, hkey⟩
    obtain ⟨start, hstart⟩ := exists_initialBlock hiv
    have hp : permutation key = .error (.keyLength (.key key.length)) := if_neg hkey
    refine ⟨.key key.length, fun t text => ⟨?_, ?_⟩⟩
    · rw [encrypt, hstart, hp]
      rfl
    · rw [decrypt, hstart, hp]
      rfl
  · have hstart : initialBlock iv = .error (.keyLength (.iv iv.length)) := by
      rw [not_or] at hiv
      rw [initialBlock, if_neg hiv.1, if_neg hiv.2]
    refine ⟨.iv iv.length, fun t text => ⟨?_, ?_⟩⟩
    · rw [encrypt, hstart]
      rfl
    · rw [decrypt, hstart]
      rfl

theorem length_encipher (t : Transformation) (p : BlockPermutation) (start : Aes.State)
    (text : Bytes) : (t.encipher p start text).length = t.ciphertextLength text.length := by
  cases t with
  | counter => exact p.length_counter start text
  | chaining =>
    obtain ⟨bs, hbs⟩ := exists_blocks (length_padBlock text)
    have hlength : 16 * bs.length = 16 * (text.length / 16 + 1) := by
      rw [← length_flatMap_bytes, ← hbs, length_padBlock]
    rw [encipher, length_flatMap_bytes, BlockPermutation.length_chain, hbs,
      textBlocks_flatMap_bytes, hlength, Nat.mul_comm]
    rfl

theorem encipher_of_decipher (hp : p.Inverts) {start : Aes.State} {text ciphertext : Bytes}
    (h : t.decipher p start ciphertext = .ok text) : t.encipher p start text = ciphertext := by
  cases t with
  | counter =>
    obtain rfl := Except.ok.inj h
    exact p.counter_counter start ciphertext
  | chaining =>
    rw [decipher] at h
    split at h
    · cases h
    · next hwhole =>
      rw [ne_eq, Decidable.not_not] at hwhole
      split at h
      · next plain hunpad =>
        obtain rfl := Except.ok.inj h
        have hlength : ciphertext.length = 16 * (ciphertext.length / 16) := by omega
        obtain ⟨cs, rfl⟩ := exists_blocks hlength
        rw [textBlocks_flatMap_bytes] at hunpad
        have hblocks : ((p.unchain start cs).flatMap Aes.State.bytes).length % 16 = 0 := by
          rw [length_flatMap_bytes]
          omega
        have hpad := padBlock_of_unpadBlock? hblocks hunpad
        rw [encipher, hpad, textBlocks_flatMap_bytes, BlockPermutation.chain_unchain hp]
      · cases h

theorem decipher_ne_keyLength {start : Aes.State} {text : Bytes} {cause : KeyLengthError} :
    t.decipher p start text ≠ .error (.keyLength cause) := by
  cases t with
  | counter => simp [decipher]
  | chaining =>
    rw [decipher]
    split
    · simp
    · split <;> simp

/-- Encryption and decryption are inverse to each other in both modes. Both fail for the lengths of
key or initial vector exactly when these do not fit, whatever the text is. Otherwise every text has
a ciphertext, of a length that the mode fixes, and deciphers from it; a ciphertext that is accepted
is the one of its text, and counter mode accepts every ciphertext. An empty initial vector stands
for zeros. -/
theorem encrypt_inverse_decrypt (t : Transformation) (key iv : Bytes) :
    (∀ text, (∃ cause, t.encrypt key iv text = .error (.keyLength cause)) ↔ ¬ Fits key iv) ∧
    (∀ text, (∃ cause, t.decrypt key iv text = .error (.keyLength cause)) ↔ ¬ Fits key iv) ∧
    (Fits key iv → ∀ text, ∃ ciphertext, t.encrypt key iv text = .ok ciphertext ∧
      ciphertext.length = t.ciphertextLength text.length ∧
      t.decrypt key iv ciphertext = .ok text) ∧
    (∀ ciphertext text, t.decrypt key iv ciphertext = .ok text →
      t.encrypt key iv text = .ok ciphertext) ∧
    (Fits key iv → ∀ ciphertext, ∃ text, counter.decrypt key iv ciphertext = .ok text) ∧
    ∀ text, t.encrypt key [] text = t.encrypt key (List.replicate 16 0) text ∧
      t.decrypt key [] text = t.decrypt key (List.replicate 16 0) text := by
  have hempty (text : Bytes) : t.encrypt key [] text = t.encrypt key (List.replicate 16 0) text ∧
      t.decrypt key [] text = t.decrypt key (List.replicate 16 0) text := by
    have hstart : initialBlock [] = initialBlock (List.replicate 16 0) := rfl
    exact ⟨by rw [encrypt, encrypt, hstart], by rw [decrypt, decrypt, hstart]⟩
  by_cases hfits : Fits key iv
  · obtain ⟨p, start, hp, heq⟩ := exists_of_fits hfits
    obtain ⟨hencrypt, hdecrypt⟩ := heq t
    refine ⟨fun text => ?_, fun text => ?_, fun _ text => ?_, fun ciphertext text h => ?_,
      fun _ ciphertext => ?_, hempty⟩
    · simp [hencrypt, hfits]
    · simp [hdecrypt, hfits, decipher_ne_keyLength]
    · exact ⟨_, hencrypt text, t.length_encipher p start text, decrypt_of_encrypt (hencrypt text)⟩
    · rw [hdecrypt] at h
      rw [hencrypt, encipher_of_decipher hp h]
    · exact ⟨_, (heq counter).2 ciphertext⟩
  · obtain ⟨cause, heq⟩ := exists_of_not_fits hfits
    refine ⟨fun text => ?_, fun text => ?_, fun h => absurd h hfits, fun ciphertext text h => ?_,
      fun h => absurd h hfits, hempty⟩
    · simp [(heq t text).1, hfits]
    · simp [(heq t text).2, hfits]
    · rw [(heq t ciphertext).2] at h
      cases h

/-- Two blocks of text, so that the padding is a third one. -/
theorem encrypt_inverse_decrypt_aligned :
    let key : Bytes := List.replicate 24 7
    let iv : Bytes := List.replicate 16 9
    let text : Bytes := List.replicate 32 5
    Fits key iv ∧ ∃ ciphertext, chaining.encrypt key iv text = .ok ciphertext ∧
      ciphertext.length = 48 ∧ chaining.decrypt key iv ciphertext = .ok text ∧
      ∃ cause, chaining.decrypt key [1, 2, 3] ciphertext = .error (.keyLength cause) := by
  intro key iv text
  have hfits : Fits key iv := by
    simp [Fits, key, iv]
  obtain ⟨-, -, hround, -⟩ := encrypt_inverse_decrypt chaining key iv
  obtain ⟨ciphertext, hencrypt, hlength, hdecrypt⟩ := hround hfits text
  obtain ⟨-, hfails, -⟩ := encrypt_inverse_decrypt chaining key [1, 2, 3]
  refine ⟨hfits, ciphertext, hencrypt, ?_, hdecrypt, (hfails ciphertext).mpr ?_⟩
  · simp [hlength, ciphertextLength, text]
  · simp [Fits]

end Transformation

end ContentAddressed
