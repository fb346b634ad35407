import ContentAddressed.Cipher.Transformation
import ContentAddressed.Proofs.Bytes
import ContentAddressed.Proofs.Cipher.Aes
import ContentAddressed.Proofs.Result

/-!
# Deciphering a ciphertext gives the text

Counter mode undoes itself for any permutation, chaining is undone where the permutation has an
inverse. Nothing here depends on the cipher but `permutation_inverts`.
-/

namespace ContentAddressed

def BlockPermutation.Inverts (p : BlockPermutation) : Prop := ∀ s, p.backward (p.forward s) = s

theorem Aes.State.bytes_ofBytes {bs : Bytes} (h : bs.length = 16) : (ofBytes bs).bytes = bs := by
  match bs, h with
  | [_, _, _, _, _, _, _, _, _, _, _, _, _, _, _, _], _ => rfl

theorem length_flatMap_bytes (bs : List Aes.State) :
    (bs.flatMap Aes.State.bytes).length = 16 * bs.length := by
  induction bs with
  | nil => rfl
  | cons b bs ih =>
    rw [List.flatMap_cons, List.length_append, ih, Aes.State.length_bytes, List.length_cons]
    omega

theorem exists_blocks {n : Nat} {text : Bytes} (h : text.length = 16 * n) :
    ∃ bs : List Aes.State, text = bs.flatMap Aes.State.bytes := by
  induction n generalizing text with
  | zero => exact ⟨[], by simpa using h⟩
  | succ n ih =>
    have hdrop : (text.drop 16).length = 16 * n := by
      rw [List.length_drop]
      omega
    have htake : (text.take 16).length = 16 := by
      rw [List.length_take]
      omega
    obtain ⟨bs, hbs⟩ := ih hdrop
    refine ⟨Aes.State.ofBytes (text.take 16) :: bs, ?_⟩
    rw [List.flatMap_cons, Aes.State.bytes_ofBytes htake, ← hbs, List.take_append_drop]

theorem textBlocks_flatMap_bytes (bs : List Aes.State) :
    textBlocks (bs.flatMap Aes.State.bytes) = bs := by
  have hpieces : ∀ piece ∈ bs.map Aes.State.bytes, piece.length = 16 := by
    simp
  rw [textBlocks, List.flatMap_def, Bytes.chunks_flatten (by omega) hpieces,
    List.map_map]
  conv_rhs => rw [← List.map_id bs]
  exact List.map_congr_left fun b _ => Aes.State.ofBytes_bytes b

theorem length_padBlock (text : Bytes) :
    (padBlock text).length = 16 * (text.length / 16 + 1) := by
  rw [padBlock, List.length_append, List.length_replicate]
  omega

theorem unpadBlock?_padBlock (text : Bytes) : unpadBlock? (padBlock text) = some text := by
  have hpos : 16 - text.length % 16 ≠ 0 := by omega
  have hlast : (padBlock text).getLast? = some (UInt8.ofNat (16 - text.length % 16)) := by
    rw [padBlock, List.getLast?_append, List.getLast?_replicate, if_neg hpos]
    rfl
  have hbyte : (UInt8.ofNat (16 - text.length % 16)).toNat = 16 - text.length % 16 := by
    rw [UInt8.toNat_ofNat']
    omega
  have hkept : (padBlock text).length - (16 - text.length % 16) = text.length := by
    rw [padBlock, List.length_append, List.length_replicate]
    omega
  simp only [unpadBlock?, hlast, hbyte, hkept]
  rw [if_pos]
  · rw [padBlock, List.take_left]
  · refine ⟨by omega, by omega, ?_, ?_⟩
    · rw [length_padBlock]
      omega
    · rw [padBlock, List.drop_left]
      simp

namespace BlockPermutation

variable {p : BlockPermutation}

theorem length_keyStream (p : BlockPermutation) (start count : Nat) :
    (p.keyStream start count).length = count * 16 := by
  simp [keyStream]

/-- The key stream covers the text, so each byte is combined with the same byte twice. -/
theorem counter_counter (p : BlockPermutation) (iv : Aes.State) (text : Bytes) :
    p.counter iv (p.counter iv text) = text := by
  have hundo (xs ks : Bytes) (h : xs.length ≤ ks.length) :
      List.zipWith (· ^^^ ·) (List.zipWith (· ^^^ ·) xs ks) ks = xs := by
    induction xs generalizing ks with
    | nil => rfl
    | cons x xs ih =>
      cases ks with
      | nil => simp at h
      | cons k ks =>
        have hx : x ^^^ k ^^^ k = x := by
          rw [UInt8.xor_assoc, UInt8.xor_self, UInt8.xor_zero]
        simp only [List.zipWith_cons_cons, hx, ih ks (by simpa using h)]
  have hcover : text.length ≤
      (p.keyStream (Bytes.fromBigEndian iv.bytes) ((text.length + 15) / 16)).length := by
    rw [length_keyStream]
    omega
  have hlen : (p.counter iv text).length = text.length := by
    rw [counter, List.length_zipWith]
    omega
  rw [counter, hlen, counter]
  exact hundo text _ hcover

@[simp] theorem length_chain (p : BlockPermutation) (iv : Aes.State) (bs : List Aes.State) :
    (p.chain iv bs).length = bs.length := by
  induction bs generalizing iv with
  | nil => rfl
  | cons b bs ih => rw [chain, List.length_cons, ih, List.length_cons]

theorem unchain_chain (hp : p.Inverts) (iv : Aes.State) (bs : List Aes.State) :
    p.unchain iv (p.chain iv bs) = bs := by
  induction bs generalizing iv with
  | nil => rfl
  | cons b bs ih =>
    have hb : (p.backward (p.forward (b.xor iv))).xor iv = b := by
      rw [hp, Aes.State.xor_xor_self]
    change (p.backward (p.forward (b.xor iv))).xor iv :: p.unchain _ (p.chain _ bs) = b :: bs
    rw [ih, hb]

end BlockPermutation

namespace Transformation

theorem parse_name (t : Transformation) : parse t.name = .ok t := by
  cases t <;> rfl

theorem permutation_inverts {key : Bytes} {p : BlockPermutation} (h : permutation key = .ok p) :
    p.Inverts := by
  rw [permutation] at h
  split at h
  · obtain rfl := (Except.ok.inj h).symm
    exact Aes.decrypt_encrypt (Aes.expand key)
  · cases h

theorem decrypt_of_encrypt {t : Transformation} {key iv text ciphertext : Bytes}
    (h : t.encrypt key iv text = .ok ciphertext) : t.decrypt key iv ciphertext = .ok text := by
  simp only [encrypt, Result.bind_eq_ok_iff] at h
  obtain ⟨start, hstart, p, hp, h⟩ := h
  simp only [decrypt, Result.bind_eq_ok_iff]
  refine ⟨start, hstart, p, hp, ?_⟩
  cases t with
  | counter =>
    obtain rfl := (Except.ok.inj h).symm
    rw [BlockPermutation.counter_counter]
  | chaining =>
    obtain rfl := (Except.ok.inj h).symm
    obtain ⟨bs, hbs⟩ := exists_blocks (length_padBlock text)
    have hwhole (cs : List Aes.State) : (cs.flatMap Aes.State.bytes).length % 16 = 0 := by
      rw [length_flatMap_bytes]
      omega
    simp only [hbs, textBlocks_flatMap_bytes, hwhole, ne_eq, not_true_eq_false, if_false,
      BlockPermutation.unchain_chain (permutation_inverts hp)]
    rw [← hbs, unpadBlock?_padBlock]

theorem exists_encrypt (t : Transformation) {key : Bytes}
    (hkey : key.length = 16 ∨ key.length = 24 ∨ key.length = 32) (text : Bytes) :
    ∃ ciphertext, t.encrypt key [] text = .ok ciphertext := by
  have hp : permutation key =
      .ok ⟨Aes.encrypt (Aes.expand key), Aes.decrypt (Aes.expand key)⟩ := if_pos hkey
  cases t with
  | counter => exact ⟨_, Result.bind_eq_ok_iff.mpr ⟨_, rfl, Result.bind_eq_ok_iff.mpr ⟨_, hp, rfl⟩⟩⟩
  | chaining =>
    exact ⟨_, Result.bind_eq_ok_iff.mpr ⟨_, rfl, Result.bind_eq_ok_iff.mpr ⟨_, hp, rfl⟩⟩⟩

theorem length_of_encrypt_chaining {key iv text ciphertext : Bytes}
    (h : chaining.encrypt key iv text = .ok ciphertext) :
    ciphertext.length = 16 * (text.length / 16 + 1) := by
  simp only [encrypt, Result.bind_eq_ok_iff] at h
  obtain ⟨start, -, p, -, h⟩ := h
  obtain rfl := (Except.ok.inj h).symm
  obtain ⟨bs, hbs⟩ := exists_blocks (length_padBlock text)
  rw [length_flatMap_bytes, BlockPermutation.length_chain, ← length_padBlock, hbs,
    textBlocks_flatMap_bytes, length_flatMap_bytes]

end Transformation

end ContentAddressed
