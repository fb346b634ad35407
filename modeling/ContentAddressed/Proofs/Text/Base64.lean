import ContentAddressed.Text.Base64
import Mathlib.Tactic.SplitIfs

/-!
# Base64 reads what it wrote

What was written is read back, over every alphabet in which each symbol stands for its own number
and none of them is the filling; and nothing else is read, so that bytes have one written form.
-/

namespace ContentAddressed.Base64

/-- Whether the symbols of an alphabet tell the numbers below 64 apart. -/
def Distinguishes (a : Base64) : Prop :=
  ∀ n < 64, a.value? (a.symbol n) = some n ∧ a.symbol n ≠ '='

theorem fileName_distinguishes : fileName.Distinguishes := by
  unfold Distinguishes
  decide

theorem common_distinguishes : common.Distinguishes := by
  unfold Distinguishes
  decide

theorem length_encodeList (a : Base64) (bs : Bytes) :
    (a.encodeList bs).length = (bs.length + 2) / 3 * 4 := by
  induction bs using encodeList.induct with
  | case1 x y z rest ih =>
    simp only [encodeList, List.length_cons, ih]
    omega
  | case2 x y => simp [encodeList]
  | case3 x => simp [encodeList]
  | case4 => rfl

theorem mem_encodeList {a : Base64} {bs : Bytes} {c : Char} (hc : c ∈ a.encodeList bs) :
    c = '=' ∨ ∃ n < 64, c = a.symbol n := by
  induction bs using encodeList.induct with
  | case1 x y z rest ih =>
    have hx := x.toNat_lt
    have hy := y.toNat_lt
    have hz := z.toNat_lt
    simp only [encodeList, List.mem_cons] at hc
    rcases hc with rfl | rfl | rfl | rfl | hc
    · exact .inr ⟨_, by omega, rfl⟩
    · exact .inr ⟨_, by omega, rfl⟩
    · exact .inr ⟨_, by omega, rfl⟩
    · exact .inr ⟨_, by omega, rfl⟩
    · exact ih hc
  | case2 x y =>
    have hx := x.toNat_lt
    have hy := y.toNat_lt
    simp only [encodeList, List.mem_cons, List.not_mem_nil, or_false] at hc
    rcases hc with rfl | rfl | rfl | rfl
    · exact .inr ⟨_, by omega, rfl⟩
    · exact .inr ⟨_, by omega, rfl⟩
    · exact .inr ⟨_, by omega, rfl⟩
    · exact .inl rfl
  | case3 x =>
    have hx := x.toNat_lt
    simp only [encodeList, List.mem_cons, List.not_mem_nil, or_false] at hc
    rcases hc with rfl | rfl | rfl | rfl
    · exact .inr ⟨_, by omega, rfl⟩
    · exact .inr ⟨_, by omega, rfl⟩
    · exact .inl rfl
    · exact .inl rfl
  | case4 => simp [encodeList] at hc

theorem ofNat_eq_of_toNat {n : Nat} {b : UInt8} (h : n = b.toNat) : UInt8.ofNat n = b := by
  subst h
  exact UInt8.ofNat_toNat

section Groups

variable {a : Base64} (ha : a.Distinguishes)
include ha

theorem decodeLast?_full (x y z : UInt8) :
    a.decodeLast? (a.symbol ((x.toNat * 65536 + y.toNat * 256 + z.toNat) / 262144))
      (a.symbol ((x.toNat * 65536 + y.toNat * 256 + z.toNat) / 4096 % 64))
      (a.symbol ((x.toNat * 65536 + y.toNat * 256 + z.toNat) / 64 % 64))
      (a.symbol ((x.toNat * 65536 + y.toNat * 256 + z.toNat) % 64)) = some [x, y, z] := by
  have hx := x.toNat_lt
  have hy := y.toNat_lt
  have hz := z.toNat_lt
  obtain ⟨hp, -⟩ := ha ((x.toNat * 65536 + y.toNat * 256 + z.toNat) / 262144) (by omega)
  obtain ⟨hq, -⟩ := ha ((x.toNat * 65536 + y.toNat * 256 + z.toNat) / 4096 % 64) (by omega)
  obtain ⟨hr, hr'⟩ := ha ((x.toNat * 65536 + y.toNat * 256 + z.toNat) / 64 % 64) (by omega)
  obtain ⟨hs, hs'⟩ := ha ((x.toNat * 65536 + y.toNat * 256 + z.toNat) % 64) (by omega)
  simp only [decodeLast?, hp, hq, hr, hs, hr', hs', false_and, if_false, Option.bind_eq_bind,
    Option.bind_some]
  rw [ofNat_eq_of_toNat (b := x) (by omega)]
  congr 3
  · apply UInt8.toNat_inj.mp
    rw [UInt8.toNat_ofNat']
    omega
  · congr 1
    apply UInt8.toNat_inj.mp
    rw [UInt8.toNat_ofNat']
    omega

theorem decodeLast?_two (x y : UInt8) :
    a.decodeLast? (a.symbol ((x.toNat * 1024 + y.toNat * 4) / 4096))
      (a.symbol ((x.toNat * 1024 + y.toNat * 4) / 64 % 64))
      (a.symbol ((x.toNat * 1024 + y.toNat * 4) % 64)) '=' = some [x, y] := by
  have hx := x.toNat_lt
  have hy := y.toNat_lt
  obtain ⟨hp, -⟩ := ha ((x.toNat * 1024 + y.toNat * 4) / 4096) (by omega)
  obtain ⟨hq, -⟩ := ha ((x.toNat * 1024 + y.toNat * 4) / 64 % 64) (by omega)
  obtain ⟨hr, hr'⟩ := ha ((x.toNat * 1024 + y.toNat * 4) % 64) (by omega)
  have hbits : (x.toNat * 1024 + y.toNat * 4) % 64 % 4 = 0 := by omega
  simp only [decodeLast?, hp, hq, hr, hr', hbits, false_and, if_false, if_true,
    Option.bind_eq_bind, Option.bind_some]
  rw [ofNat_eq_of_toNat (b := x) (by omega)]
  congr 3
  apply UInt8.toNat_inj.mp
  rw [UInt8.toNat_ofNat']
  omega

theorem decodeLast?_one (x : UInt8) :
    a.decodeLast? (a.symbol (x.toNat * 16 / 64)) (a.symbol (x.toNat * 16 % 64)) '=' '=' =
      some [x] := by
  have hx := x.toNat_lt
  obtain ⟨hp, -⟩ := ha (x.toNat * 16 / 64) (by omega)
  obtain ⟨hq, -⟩ := ha (x.toNat * 16 % 64) (by omega)
  have hbits : x.toNat * 16 % 64 % 16 = 0 := by omega
  simp only [decodeLast?, hp, hq, hbits, and_self, if_true, Option.bind_eq_bind,
    Option.bind_some]
  rw [ofNat_eq_of_toNat (b := x) (by omega)]

theorem decodeList?_encodeList (bs : Bytes) : a.decodeList? (a.encodeList bs) = some bs := by
  induction bs using encodeList.induct with
  | case1 x y z rest ih =>
    have hfull := decodeLast?_full ha x y z
    obtain ⟨-, hs⟩ := ha ((x.toNat * 65536 + y.toNat * 256 + z.toNat) % 64)
      (Nat.mod_lt _ (by omega))
    cases rest with
    | nil => exact hfull
    | cons b more =>
      have hne : a.encodeList (b :: more) ≠ [] := by
        intro h
        have hlen := congrArg List.length h
        simp only [length_encodeList, List.length_cons, List.length_nil] at hlen
        omega
      rw [encodeList, decodeList?, decodeGroup?, if_neg hs, hfull, ih]
      · rfl
      · exact hne
  | case2 x y => exact decodeLast?_two ha x y
  | case3 x => exact decodeLast?_one ha x
  | case4 => rfl

theorem decode?_encode (bs : Bytes) : a.decode? (a.encode bs) = some bs := by
  rw [decode?, encode, String.toList_ofList]
  exact decodeList?_encodeList ha bs

end Groups

/-! ## Only what was written is read -/

theorem symbol_of_value? {a : Base64} {c : Char} {n : Nat} (h : a.value? c = some n) :
    n < 64 ∧ a.symbol n = c := by
  have hrange (low high : Char) :
      low ≤ c ∧ c ≤ high ↔ low.toNat ≤ c.toNat ∧ c.toNat ≤ high.toNat := by
    simp [Char.le_def, UInt32.le_iff_toNat_le]
  simp only [value?, hrange] at h
  split_ifs at h with hupper hlower hdigit h62 h63 <;> obtain rfl := Option.some.inj h
  · change 65 ≤ c.toNat ∧ c.toNat ≤ 90 at hupper
    have hback : 65 + (c.toNat - 65) = c.toNat := by omega
    exact ⟨by omega, by rw [symbol, if_pos (by omega), hback, Char.ofNat_toNat]⟩
  · change 97 ≤ c.toNat ∧ c.toNat ≤ 122 at hlower
    have hback : 71 + (c.toNat - 71) = c.toNat := by omega
    refine ⟨by omega, ?_⟩
    rw [symbol, if_neg (by omega), if_pos (by omega), hback, Char.ofNat_toNat]
  · change 48 ≤ c.toNat ∧ c.toNat ≤ 57 at hdigit
    refine ⟨by omega, ?_⟩
    rw [symbol, if_neg (by omega), if_neg (by omega), if_pos (by omega), Nat.add_sub_cancel,
      Char.ofNat_toNat]
  · exact ⟨by omega, by simp [symbol, h62]⟩
  · exact ⟨by omega, by simp [symbol, h63]⟩

section Parts

variable {u v w x : Nat}

theorem toNat_firstByte (hu : u < 64) (hv : v < 64) :
    (UInt8.ofNat (u * 4 + v / 16)).toNat = u * 4 + v / 16 := by
  rw [UInt8.toNat_ofNat']
  omega

theorem toNat_secondByte (hw : w < 64) :
    (UInt8.ofNat (v * 16 + w / 4)).toNat = v % 16 * 16 + w / 4 := by
  rw [UInt8.toNat_ofNat']
  omega

theorem toNat_thirdByte (hx : x < 64) : (UInt8.ofNat (w * 64 + x)).toNat = w % 4 * 64 + x := by
  rw [UInt8.toNat_ofNat']
  omega

variable (a : Base64)

/-- The unused bits of a byte are zero in its second symbol. -/
theorem encodeList_one (hu : u < 64) (hv : v < 64) (hbits : v % 16 = 0) :
    a.encodeList [UInt8.ofNat (u * 4 + v / 16)] = [a.symbol u, a.symbol v, '=', '='] := by
  have hfirst : (u * 4 + v / 16) * 16 / 64 = u := by omega
  have hsecond : (u * 4 + v / 16) * 16 % 64 = v := by omega
  simp only [encodeList, toNat_firstByte hu hv, hfirst, hsecond]

theorem encodeList_two (hu : u < 64) (hv : v < 64) (hw : w < 64) (hbits : w % 4 = 0) :
    a.encodeList [UInt8.ofNat (u * 4 + v / 16), UInt8.ofNat (v * 16 + w / 4)] =
      [a.symbol u, a.symbol v, a.symbol w, '='] := by
  have hfirst : ((u * 4 + v / 16) * 1024 + (v % 16 * 16 + w / 4) * 4) / 4096 = u := by omega
  have hsecond : ((u * 4 + v / 16) * 1024 + (v % 16 * 16 + w / 4) * 4) / 64 % 64 = v := by omega
  have hthird : ((u * 4 + v / 16) * 1024 + (v % 16 * 16 + w / 4) * 4) % 64 = w := by omega
  simp only [encodeList, toNat_firstByte hu hv, toNat_secondByte hw, hfirst, hsecond, hthird]

theorem encodeList_three (hu : u < 64) (hv : v < 64) (hw : w < 64) (hx : x < 64) (rest : Bytes) :
    a.encodeList (UInt8.ofNat (u * 4 + v / 16) :: UInt8.ofNat (v * 16 + w / 4) ::
        UInt8.ofNat (w * 64 + x) :: rest) =
      a.symbol u :: a.symbol v :: a.symbol w :: a.symbol x :: a.encodeList rest := by
  have hfirst : ((u * 4 + v / 16) * 65536 + (v % 16 * 16 + w / 4) * 256 + (w % 4 * 64 + x)) /
      262144 = u := by omega
  have hsecond : ((u * 4 + v / 16) * 65536 + (v % 16 * 16 + w / 4) * 256 + (w % 4 * 64 + x)) /
      4096 % 64 = v := by omega
  have hthird : ((u * 4 + v / 16) * 65536 + (v % 16 * 16 + w / 4) * 256 + (w % 4 * 64 + x)) /
      64 % 64 = w := by omega
  have hfourth : ((u * 4 + v / 16) * 65536 + (v % 16 * 16 + w / 4) * 256 + (w % 4 * 64 + x)) %
      64 = x := by omega
  simp only [encodeList, toNat_firstByte hu hv, toNat_secondByte hw, toNat_thirdByte hx, hfirst,
    hsecond, hthird, hfourth]

end Parts

variable {a : Base64} {p q r s : Char} {bs : Bytes}

/-- A last group is read as one, two or three bytes, of which it is the written form. -/
theorem encodeList_of_decodeLast? (h : a.decodeLast? p q r s = some bs) :
    a.encodeList bs = [p, q, r, s] := by
  simp only [decodeLast?, Option.bind_eq_bind, Option.bind_eq_some_iff] at h
  obtain ⟨u, hp, v, hq, h⟩ := h
  obtain ⟨hu, rfl⟩ := symbol_of_value? hp
  obtain ⟨hv, rfl⟩ := symbol_of_value? hq
  by_cases hone : r = '=' ∧ s = '='
  · obtain ⟨rfl, rfl⟩ := hone
    simp only [and_self, if_true, Option.ite_none_right_eq_some, Option.some.injEq] at h
    obtain ⟨hbits, rfl⟩ := h
    exact encodeList_one a hu hv hbits
  · rw [if_neg hone, Option.bind_eq_some_iff] at h
    obtain ⟨w, hr, h⟩ := h
    obtain ⟨hw, rfl⟩ := symbol_of_value? hr
    by_cases htwo : s = '='
    · subst htwo
      simp only [if_true, Option.ite_none_right_eq_some, Option.some.injEq] at h
      obtain ⟨hbits, rfl⟩ := h
      exact encodeList_two a hu hv hw hbits
    · rw [if_neg htwo, Option.bind_eq_some_iff] at h
      obtain ⟨x, hs, h⟩ := h
      obtain ⟨hx, rfl⟩ := symbol_of_value? hs
      obtain rfl := Option.some.inj h
      exact encodeList_three a hu hv hw hx []

theorem exists_three_of_encodeList (h : a.encodeList bs = [p, q, r, s]) (hs : s ≠ '=') :
    ∃ x y z, bs = [x, y, z] := by
  match bs with
  | [] => simp [encodeList] at h
  | [x] =>
    simp only [encodeList, List.cons.injEq] at h
    exact absurd h.2.2.2.1.symm hs
  | [x, y] =>
    simp only [encodeList, List.cons.injEq] at h
    exact absurd h.2.2.2.1.symm hs
  | [x, y, z] => exact ⟨x, y, z, rfl⟩
  | x :: y :: z :: b :: more =>
    have hlen := congrArg List.length h
    simp only [length_encodeList, List.length_cons, List.length_nil] at hlen
    omega

theorem eq_encodeList_of_decodeList? {cs : List Char} (h : a.decodeList? cs = some bs) :
    cs = a.encodeList bs := by
  induction cs using decodeList?.induct generalizing bs with
  | case1 =>
    obtain rfl := Option.some.inj h
    rfl
  | case2 p q r s => exact (encodeList_of_decodeLast? h).symm
  | case3 p q r s rest hne ih =>
    rw [decodeList?] at h
    · simp only [Option.bind_eq_bind, Option.bind_eq_some_iff, Option.some.injEq] at h
      obtain ⟨group, hgroup, more, hmore, rfl⟩ := h
      rw [decodeGroup?, Option.ite_none_left_eq_some] at hgroup
      have hwritten := encodeList_of_decodeLast? hgroup.2
      obtain ⟨x, y, z, rfl⟩ := exists_three_of_encodeList hwritten hgroup.1
      have happend : a.encodeList ([x, y, z] ++ more) =
          a.encodeList [x, y, z] ++ a.encodeList more := by
        simp [encodeList]
      rw [happend, hwritten, ← ih hmore]
      rfl
    · exact hne
  | case4 cs hnil hgroup hgroups =>
    rw [decodeList?] at h
    · cases h
    · exact hnil
    · exact hgroup
    · exact hgroups

/-- Reading accepts exactly the written form. -/
theorem decodeList?_eq_some_iff (ha : a.Distinguishes) {cs : List Char} :
    a.decodeList? cs = some bs ↔ cs = a.encodeList bs :=
  ⟨eq_encodeList_of_decodeList?, fun h => h ▸ decodeList?_encodeList ha bs⟩

end ContentAddressed.Base64
