import ContentAddressed.Cursor
import ContentAddressed.Proofs.Bytes

/-!
# What a read tells about a frame

A read succeeds exactly when the bytes ahead begin with the written form of what it returns, and
then the cursor stands behind that form. Each reader has one such law, and `bind_eq_ok_iff` joins
them.
-/

namespace ContentAddressed

/-- A cursor moves to another one by passing some bytes. -/
def Cursor.Passes (c : Cursor) (bs : Bytes) (c' : Cursor) : Prop :=
  c.rest = bs ++ c'.rest ∧ c'.offset = c.offset + bs.length

namespace Cursor

theorem passes_nil {c c' : Cursor} : c.Passes [] c' ↔ c' = c := by
  cases c
  cases c'
  simp only [Passes, List.nil_append, List.length_nil, Nat.add_zero, mk.injEq]
  exact ⟨fun h => ⟨h.2, h.1.symm⟩, fun h => ⟨h.2.symm, h.1⟩⟩

theorem passes_append {c c' : Cursor} {xs ys : Bytes} :
    c.Passes (xs ++ ys) c' ↔ ∃ d : Cursor, c.Passes xs d ∧ d.Passes ys c' := by
  constructor
  · rintro ⟨hrest, hoff⟩
    refine ⟨⟨c.offset + xs.length, ys ++ c'.rest⟩, ⟨?_, rfl⟩, rfl, ?_⟩
    · rw [hrest, List.append_assoc]
    · rw [hoff, List.length_append, Nat.add_assoc]
  · rintro ⟨d, ⟨hc, hcd⟩, hd, hdc⟩
    refine ⟨?_, ?_⟩
    · rw [hc, hd, List.append_assoc]
    · rw [hdc, hcd, List.length_append, Nat.add_assoc]

theorem Passes.trans {c d c' : Cursor} {xs ys : Bytes} (h : c.Passes xs d) (h' : d.Passes ys c') :
    c.Passes (xs ++ ys) c' :=
  passes_append.mpr ⟨d, h, h'⟩

end Cursor

namespace Reader

variable {α β : Type}

theorem bind_eq_ok_iff {r : Reader α} {f : α → Reader β} {c c' : Cursor} {b : β} :
    (r >>= f) c = .ok (b, c') ↔ ∃ a d, r c = .ok (a, d) ∧ f a d = .ok (b, c') := by
  change (r c >>= fun p => f p.1 p.2) = .ok (b, c') ↔ _
  cases hr : r c with
  | error e => simp [bind, Except.bind]
  | ok p =>
    obtain ⟨a, d⟩ := p
    simp [bind, Except.bind]

theorem pure_eq_ok_iff {a b : α} {c c' : Cursor} :
    (pure a : Reader α) c = .ok (b, c') ↔ b = a ∧ c' = c := by
  change Except.ok (a, c) = Except.ok (b, c') ↔ _
  simp only [Except.ok.injEq, Prod.mk.injEq]
  exact ⟨fun h => ⟨h.1.symm, h.2.symm⟩, fun h => ⟨h.1.symm, h.2.symm⟩⟩

theorem fail_ne_ok {cause : FormatError} {c : Cursor} {p : α × Cursor} :
    (fail cause : Reader α) c ≠ .ok p :=
  fun h => nomatch h

theorem guard_eq_ok_iff {p : Prop} [Decidable p] {cause : FormatError} {r : Reader β}
    {c c' : Cursor} {b : β} :
    (if p then (fail cause : Reader PUnit) >>= fun _ => r else r) c = .ok (b, c') ↔
      ¬ p ∧ r c = .ok (b, c') := by
  by_cases h : p
  · simp only [h, if_true, not_true_eq_false, false_and, iff_false, bind_eq_ok_iff]
    rintro ⟨a, d, hf, _⟩
    exact fail_ne_ok hf
  · simp [h]

theorem take_eq_ok_iff {n : Nat} {what : String} {c c' : Cursor} {bs : Bytes} :
    take n what c = .ok (bs, c') ↔ bs.length = n ∧ c.Passes bs c' := by
  cases c with
  | mk o rest =>
    cases c' with
    | mk o' rest' =>
      by_cases hlen : (rest.take n).length = n
      · simp only [take, if_pos hlen, Except.ok.injEq, Prod.mk.injEq, Cursor.mk.injEq,
          Cursor.Passes]
        constructor
        · rintro ⟨rfl, rfl, rfl⟩
          exact ⟨hlen, (List.take_append_drop n rest).symm, by rw [hlen]⟩
        · rintro ⟨rfl, rfl, rfl⟩
          simp
      · simp only [take, if_neg hlen, Cursor.Passes, reduceCtorEq, false_iff]
        rintro ⟨rfl, rfl, -⟩
        simp at hlen

theorem magic_eq_ok_iff {expected : Bytes} {what : String} {c c' : Cursor} {u : Unit} :
    magic expected what c = .ok (u, c') ↔ c.Passes expected c' := by
  simp only [magic, bind_eq_ok_iff, take_eq_ok_iff]
  constructor
  · rintro ⟨found, d, ⟨-, hp⟩, h⟩
    by_cases he : found = expected
    · rw [if_pos he, pure_eq_ok_iff] at h
      rw [← he, h.2]
      exact hp
    · rw [if_neg he] at h
      exact absurd h fail_ne_ok
  · intro hp
    exact ⟨expected, c', ⟨rfl, hp⟩, by rw [if_pos rfl]; rfl⟩

theorem number_eq_ok_iff {width n : Nat} {what : String} {c c' : Cursor} :
    number width what c = .ok (n, c') ↔
      n < 256 ^ width ∧ c.Passes (Bytes.littleEndian width n) c' := by
  simp only [number, bind_eq_ok_iff, take_eq_ok_iff, pure_eq_ok_iff]
  constructor
  · rintro ⟨bs, d, ⟨rfl, hp⟩, rfl, rfl⟩
    refine ⟨Bytes.fromLittleEndian_lt bs, ?_⟩
    rwa [Bytes.littleEndian_fromLittleEndian]
  · rintro ⟨hn, hp⟩
    refine ⟨_, c', ⟨Bytes.length_littleEndian width n, hp⟩, ?_, rfl⟩
    rw [Bytes.fromLittleEndian_littleEndian, Nat.mod_eq_of_lt hn]

theorem text_eq_ok_iff {n : Nat} {what s : String} {c c' : Cursor} :
    text n what c = .ok (s, c') ↔
      s.toList.length = n ∧ Ascii.printable s ∧ c.Passes (Ascii.encode s) c' := by
  simp only [text, bind_eq_ok_iff, take_eq_ok_iff]
  constructor
  · rintro ⟨bs, d, ⟨rfl, hp⟩, h⟩
    by_cases hb : bs.all Ascii.isPrintable
    · rw [if_pos hb, pure_eq_ok_iff] at h
      obtain ⟨rfl, rfl⟩ := h
      rw [Ascii.encode_decode hb]
      exact ⟨by simp [Ascii.decode], Ascii.printable_decode hb, hp⟩
    · rw [if_neg hb] at h
      exact absurd h fail_ne_ok
  · rintro ⟨rfl, hs, hp⟩
    refine ⟨_, c', ⟨Ascii.length_encode s, hp⟩, ?_⟩
    rw [if_pos (Ascii.all_isPrintable_encode hs), pure_eq_ok_iff, Ascii.decode_encode hs]
    exact ⟨rfl, rfl⟩

theorem position_eq_ok_iff {n : Nat} {c c' : Cursor} :
    position c = .ok (n, c') ↔ n = c.offset ∧ c' = c := by
  change Except.ok (c.offset, c) = Except.ok (n, c') ↔ _
  simp only [Except.ok.injEq, Prod.mk.injEq]
  exact ⟨fun h => ⟨h.1.symm, h.2.symm⟩, fun h => ⟨h.1.symm, h.2.symm⟩⟩

/-- Whatever fails a reader is a fault of the bytes. -/
def BlamesBytes (r : Reader α) : Prop :=
  ∀ c e, r c = .error e → ∃ cause, e = .format cause

theorem BlamesBytes.pure (a : α) : BlamesBytes (Pure.pure a : Reader α) :=
  fun _ _ h => nomatch h

theorem BlamesBytes.fail (cause : FormatError) : BlamesBytes (Reader.fail cause : Reader α) :=
  fun _ _ h => ⟨cause, (Except.error.inj h).symm⟩

theorem BlamesBytes.bind {r : Reader α} {f : α → Reader β} (hr : BlamesBytes r)
    (hf : ∀ a, BlamesBytes (f a)) : BlamesBytes (r >>= f) := by
  intro c e h
  change (r c >>= fun p => f p.1 p.2) = .error e at h
  cases hrc : r c with
  | error e' =>
    obtain rfl : e' = e := by simpa [hrc, Bind.bind, Except.bind] using h
    exact hr c e' hrc
  | ok p =>
    rw [hrc] at h
    exact hf p.1 p.2 e h

theorem BlamesBytes.guard (p : Prop) [Decidable p] (cause : FormatError) {r : Reader β}
    (hr : BlamesBytes r) :
    BlamesBytes (if p then (Reader.fail cause : Reader PUnit) >>= fun _ => r else r) := by
  split
  · exact (BlamesBytes.fail cause).bind fun _ => hr
  · exact hr

theorem blamesBytes_take (n : Nat) (what : String) : BlamesBytes (take n what) := by
  intro c e h
  simp only [take] at h
  split at h
  · cases h
  · exact ⟨_, (Except.error.inj h).symm⟩

theorem blamesBytes_magic (expected : Bytes) (what : String) :
    BlamesBytes (magic expected what) := by
  refine (blamesBytes_take _ _).bind fun found => ?_
  split
  · exact BlamesBytes.pure ()
  · exact BlamesBytes.fail _

theorem blamesBytes_number (width : Nat) (what : String) : BlamesBytes (number width what) :=
  (blamesBytes_take _ _).bind fun _ => BlamesBytes.pure _

theorem blamesBytes_text (n : Nat) (what : String) : BlamesBytes (text n what) := by
  refine (blamesBytes_take _ _).bind fun bs => ?_
  split
  · exact BlamesBytes.pure _
  · exact BlamesBytes.fail _

theorem blamesBytes_position : BlamesBytes position :=
  fun _ _ h => nomatch h

end Reader

end ContentAddressed
