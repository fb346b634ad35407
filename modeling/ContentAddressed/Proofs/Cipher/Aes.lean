import ContentAddressed.Cipher.Aes
import ContentAddressed.Proofs.Bytes

/-!
# Deciphering inverts enciphering

The square of the column map is a correction that is its own inverse, since doubling is additive.
Each round is undone by its inverse round, and so are all rounds in reverse order.
-/

namespace ContentAddressed.Aes

theorem xor_left_comm (a b c : UInt8) : a ^^^ (b ^^^ c) = b ^^^ (a ^^^ c) := by
  ac_rfl

theorem xor_xor_cancel (a b : UInt8) : a ^^^ (a ^^^ b) = b := by
  rw [← UInt8.xor_assoc, UInt8.xor_self, UInt8.zero_xor]

theorem and_xor_distrib (a b m : UInt8) : (a ^^^ b) &&& m = (a &&& m) ^^^ (b &&& m) := by
  apply UInt8.toBitVec_inj.mp
  ext i hi
  simp only [UInt8.toBitVec_and, UInt8.toBitVec_xor, BitVec.getElem_and, BitVec.getElem_xor]
  exact Bool.and_xor_distrib_right _ _ _

theorem substitute_eq (b : UInt8) : substitute b = substitution.toList.getD b.toNat 0 := by
  simp [substitute]

theorem unsubstitute_eq (b : UInt8) :
    unsubstitute b = inverseSubstitution.toList.getD b.toNat 0 := by
  simp [unsubstitute]

/-- The two tables are inverse. As numbers they are looked up by division, which computes well. -/
theorem unsubstitute_substitute (b : UInt8) : unsubstitute (substitute b) = b := by
  have htables : ∀ n : Fin 256,
      Bytes.fromLittleEndian inverseSubstitution.toList /
        256 ^ (Bytes.fromLittleEndian substitution.toList / 256 ^ n.val % 256) % 256 = n.val := by
    decide +kernel
  apply UInt8.toNat_inj.mp
  rw [unsubstitute_eq, Bytes.toNat_getD, substitute_eq, Bytes.toNat_getD]
  exact htables ⟨b.toNat, b.toNat_lt⟩

theorem and_high_bit (b : UInt8) : b &&& 0x80 = 0 ∨ b &&& 0x80 = 0x80 :=
  forall_byte (p := fun b => b &&& 0x80 = 0 ∨ b &&& 0x80 = 0x80) (by decide +kernel) b

/-- Doubling is additive: the reduction happens once for each summand with the high bit. -/
theorem double_xor (a b : UInt8) : double (a ^^^ b) = double a ^^^ double b := by
  have hshift : (a ^^^ b) <<< 1 = a <<< 1 ^^^ b <<< 1 := UInt8.shiftLeft_xor
  have hne : ¬ (0x80 : UInt8) = 0 := by decide
  simp only [double, and_xor_distrib, hshift]
  rcases and_high_bit a with ha | ha <;> rcases and_high_bit b with hb | hb
  · simp only [ha, hb, UInt8.xor_self, if_true]
  · simp only [ha, hb, UInt8.zero_xor, if_true, if_neg hne]
    ac_rfl
  · simp only [ha, hb, UInt8.xor_zero, if_true, if_neg hne]
    ac_rfl
  · simp only [ha, hb, UInt8.xor_self, if_true, if_neg hne]
    simp only [UInt8.xor_comm, xor_left_comm, UInt8.xor_self, UInt8.zero_xor]

/-- The correction in front of the column map that turns it into its inverse. -/
def correctColumn (w : Word) : Word :=
  let u := double (double (w.b0 ^^^ w.b2))
  let v := double (double (w.b1 ^^^ w.b3))
  ⟨w.b0 ^^^ u, w.b1 ^^^ v, w.b2 ^^^ u, w.b3 ^^^ v⟩

theorem unmixColumn_eq (w : Word) : unmixColumn w = mixColumn (correctColumn w) := rfl

theorem mixColumn_mixColumn (w : Word) : mixColumn (mixColumn w) = correctColumn w := by
  simp only [mixColumn, Word.map, correctColumn, double_xor, Word.mk.injEq]
  refine ⟨?_, ?_, ?_, ?_⟩
  · simp only [UInt8.xor_assoc, UInt8.xor_comm, xor_left_comm, xor_xor_cancel]
  · simp only [UInt8.xor_assoc, UInt8.xor_comm, xor_left_comm, xor_xor_cancel]
  · simp only [UInt8.xor_assoc, UInt8.xor_comm, xor_left_comm, xor_xor_cancel, UInt8.xor_self,
      UInt8.zero_xor]
  · simp only [UInt8.xor_assoc, UInt8.xor_comm, xor_left_comm, xor_xor_cancel]

theorem correctColumn_correctColumn (w : Word) : correctColumn (correctColumn w) = w := by
  have hsum (a b c : UInt8) : (a ^^^ c) ^^^ (b ^^^ c) = a ^^^ b := by
    simp only [UInt8.xor_comm, xor_left_comm, UInt8.xor_self, UInt8.xor_zero]
  have hundo (a c : UInt8) : (a ^^^ c) ^^^ c = a := by
    rw [UInt8.xor_assoc, UInt8.xor_self, UInt8.xor_zero]
  simp only [correctColumn, hsum, hundo]

theorem unmixColumn_mixColumn (w : Word) : unmixColumn (mixColumn w) = w := by
  calc
    unmixColumn (mixColumn w) = mixColumn (correctColumn (mixColumn w)) := unmixColumn_eq _
    _ = mixColumn (mixColumn (mixColumn (mixColumn w))) := by rw [mixColumn_mixColumn (mixColumn w)]
    _ = correctColumn (correctColumn w) := by rw [mixColumn_mixColumn w, mixColumn_mixColumn]
    _ = w := correctColumn_correctColumn w

namespace State

theorem xor_xor_self (s k : State) : (s.xor k).xor k = s := by
  have hundo (a c : UInt8) : (a ^^^ c) ^^^ c = a := by
    rw [UInt8.xor_assoc, UInt8.xor_self, UInt8.xor_zero]
  simp only [xor, Word.xor, hundo]

theorem map_map_eq {f g : Word → Word} (h : ∀ w, g (f w) = w) (s : State) :
    (s.map f).map g = s := by
  simp only [map, h]

end State

theorem map_unsubstitute (w : Word) : (w.map substitute).map unsubstitute = w := by
  simp only [Word.map, unsubstitute_substitute]

theorem unlastRound_lastRound (s k : State) : unlastRound (lastRound s k) k = s := by
  rw [unlastRound, lastRound, State.xor_xor_self, unshiftRows_shiftRows,
    State.map_map_eq map_unsubstitute]

theorem unround_round (s k : State) : unround (round s k) k = s := by
  rw [unround, round, State.xor_xor_self, State.map_map_eq unmixColumn_mixColumn,
    unshiftRows_shiftRows, State.map_map_eq map_unsubstitute]

theorem foldl_unround (ks : List State) (s : State) :
    ks.reverse.foldl unround (ks.foldl round s) = s := by
  induction ks generalizing s with
  | nil => rfl
  | cons k ks ih =>
    rw [List.reverse_cons, List.foldl_append]
    change unround (ks.reverse.foldl unround (ks.foldl round (round s k))) k = s
    rw [ih, unround_round]

/-- Deciphering inverts enciphering under every schedule. -/
theorem decrypt_encrypt (k : Schedule) (s : State) : decrypt k (encrypt k s) = s := by
  rw [decrypt, encrypt, unlastRound_lastRound, foldl_unround, State.xor_xor_self]

end ContentAddressed.Aes
