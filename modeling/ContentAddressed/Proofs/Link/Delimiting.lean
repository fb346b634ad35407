import ContentAddressed.Proofs.Link.Frame
import Mathlib.InformationTheory.Coding.UniquelyDecodable

/-!
# Frames that tell where they end

Reading a link takes the bytes of its own frame from a buffer and looks at nothing before or behind
them. So no frame is the start of another one, and frames in a row are told apart in one way.
-/

namespace ContentAddressed

namespace Cursor

def within (buffer : Bytes) (position : Nat) : Cursor := ⟨position, buffer.drop position⟩

theorem within_append (before after : Bytes) :
    within (before ++ after) before.length = ⟨before.length, after⟩ := by
  rw [within, List.drop_left]

theorem passes_within_append (before bs after : Bytes) :
    (within (before ++ (bs ++ after)) before.length).Passes bs
      (within (before ++ (bs ++ after)) (before.length + bs.length)) := by
  rw [within_append, ← List.append_assoc, ← List.length_append, within_append]
  exact ⟨rfl, List.length_append⟩

theorem eq_within_of_passes {buffer bs : Bytes} {position : Nat} {c : Cursor} (hbs : bs ≠ [])
    (h : (within buffer position).Passes bs c) :
    c = within buffer (position + bs.length) ∧ position + bs.length ≤ buffer.length ∧
      (buffer.drop position).take bs.length = bs := by
  obtain ⟨offset, rest⟩ := c
  obtain ⟨hrest, hoffset⟩ := h
  simp only [within] at hrest hoffset
  have hlength := congrArg List.length hrest
  rw [List.length_drop, List.length_append] at hlength
  have hpos := List.length_pos_iff.mpr hbs
  refine ⟨?_, by omega, by rw [hrest, List.take_left]⟩
  rw [hoffset, within, ← List.drop_drop, hrest, List.drop_left]

end Cursor

namespace Link

variable {f g : Bytes} {l k : Link}

theorem frame_ne_nil (l : Link) : l.frame ≠ [] := by
  rw [← List.length_pos_iff, length_frame, byteLength]
  omega

/-- Of two rows of bytes that start with a frame each, equal ones have the same link in front. -/
theorem eq_of_frame_append_eq {after after' : Bytes} (hl : l.Valid ∧ l.Canonical)
    (hk : k.Valid ∧ k.Canonical) (h : l.frame ++ after = k.frame ++ after') :
    l = k ∧ after = after' := by
  have hread {m : Link} {bs : Bytes} (hm : m.Valid ∧ m.Canonical)
      (hbs : l.frame ++ after = m.frame ++ bs) :
      read ⟨0, l.frame ++ after⟩ = .ok (m, ⟨m.frame.length, bs⟩) :=
    read_eq_ok_iff.mpr ⟨hm.1, hm.2, hbs, (Nat.zero_add _).symm⟩
  have hsame := (hread hl rfl).symm.trans (hread hk h)
  simp only [Except.ok.injEq, Prod.mk.injEq, Cursor.mk.injEq] at hsame
  exact ⟨hsame.1, hsame.2.2⟩

theorem eq_of_prefix (hf : parse f = .ok l) (hg : parse g = .ok k) (h : f <+: g) : f = g := by
  obtain ⟨hl, hl', rfl⟩ := parse_eq_ok_iff.mp hf
  obtain ⟨hk, hk', rfl⟩ := parse_eq_ok_iff.mp hg
  obtain ⟨after, hafter⟩ := h
  have hrow : l.frame ++ after = k.frame ++ [] := by rw [hafter, List.append_nil]
  rw [(eq_of_frame_append_eq ⟨hl, hl'⟩ ⟨hk, hk'⟩ hrow).1]

/-- Frames in a row are told apart in one way. -/
theorem uniquelyDecodable_frames :
    InformationTheory.UniquelyDecodable {f | ∃ l, parse f = .ok l} := by
  intro fs gs hfs hgs h
  induction fs generalizing gs with
  | nil =>
    cases gs with
    | nil => rfl
    | cons g gs =>
      obtain ⟨k, hk⟩ := hgs g List.mem_cons_self
      obtain ⟨-, -, rfl⟩ := parse_eq_ok_iff.mp hk
      exact absurd (List.append_eq_nil_iff.mp h.symm).1 k.frame_ne_nil
  | cons f fs ih =>
    obtain ⟨⟨l, hl⟩, hfs'⟩ := List.forall_mem_cons.mp hfs
    obtain ⟨hvalid, hcanonical, rfl⟩ := parse_eq_ok_iff.mp hl
    cases gs with
    | nil => exact absurd (List.append_eq_nil_iff.mp h).1 l.frame_ne_nil
    | cons g gs =>
      obtain ⟨⟨k, hk⟩, hgs'⟩ := List.forall_mem_cons.mp hgs
      obtain ⟨hvalid', hcanonical', rfl⟩ := parse_eq_ok_iff.mp hk
      obtain ⟨rfl, hrest⟩ := eq_of_frame_append_eq ⟨hvalid, hcanonical⟩ ⟨hvalid', hcanonical'⟩ h
      rw [ih gs hfs' hgs' hrest]

/-- A link is read from its frame in the same way wherever the frame stands and whatever surrounds
it, and every link that is read anywhere has taken its own frame from the buffer. So no frame is a
proper start of another one, and frames in a row are told apart in one way only. -/
theorem frames_delimit_themselves :
    (∀ (f : Bytes) (l : Link), parse f = .ok l → f.length = l.byteLength ∧
      ∀ before after : Bytes, read (.within (before ++ (f ++ after)) before.length) =
        .ok (l, .within (before ++ (f ++ after)) (before.length + f.length))) ∧
    (∀ (buffer : Bytes) (position : Nat) (l : Link) (c : Cursor),
      read (.within buffer position) = .ok (l, c) →
        c = .within buffer (position + l.byteLength) ∧
        position + l.byteLength ≤ buffer.length ∧
        (buffer.drop position).take l.byteLength = l.frame ∧ parse l.frame = .ok l) ∧
    (∀ f g : Bytes, (∃ l, parse f = .ok l) → (∃ k, parse g = .ok k) → f <+: g → f = g) ∧
    InformationTheory.UniquelyDecodable {f | ∃ l, parse f = .ok l} := by
  refine ⟨fun f l hf => ?_, fun buffer position l c hread => ?_, ?_, uniquelyDecodable_frames⟩
  · obtain ⟨hvalid, hcanonical, rfl⟩ := parse_eq_ok_iff.mp hf
    refine ⟨l.length_frame, fun before after => ?_⟩
    exact read_eq_ok_iff.mpr ⟨hvalid, hcanonical, Cursor.passes_within_append before _ after⟩
  · obtain ⟨hvalid, hcanonical, hpasses⟩ := read_eq_ok_iff.mp hread
    obtain ⟨hc, hend, htaken⟩ := Cursor.eq_within_of_passes l.frame_ne_nil hpasses
    rw [length_frame] at hc hend htaken
    exact ⟨hc, hend, htaken, parse_eq_ok_iff.mpr ⟨hvalid, hcanonical, rfl⟩⟩
  · rintro f g ⟨l, hf⟩ ⟨k, hg⟩ h
    exact eq_of_prefix hf hg h

/-- Two frames in a row between other bytes: a link without a key, and one with a key of thirteen
bits whose bytes look like the start of a frame. -/
theorem frames_delimit_themselves_row :
    let plain : Link := ⟨"a", none⟩
    let keyed : Link := ⟨"b", some ⟨"", [0x4C, 0x49], 13, [], 0⟩⟩
    let buffer : Bytes := [7] ++ (plain.frame ++ (keyed.frame ++ [9]))
    read (.within buffer 1) = .ok (plain, .within buffer 18) ∧
      read (.within buffer 18) = .ok (keyed, .within buffer 37) ∧
      ∀ fs : List Bytes, (∀ f ∈ fs, ∃ l, parse f = .ok l) →
        fs.flatten = plain.frame ++ keyed.frame → fs = [plain.frame, keyed.frame] := by
  intro plain keyed buffer
  obtain ⟨hread, -, -, hrow⟩ := frames_delimit_themselves
  have hplain : parse plain.frame = .ok plain := by
    refine parse_eq_ok_iff.mpr ⟨⟨by decide, by decide, ?_, by decide⟩, ?_, rfl⟩ <;> rintro d ⟨⟩
  have hkeyed : parse keyed.frame = .ok keyed := by
    refine parse_eq_ok_iff.mpr ⟨⟨by decide, by decide, ?_, by decide⟩, ?_, rfl⟩
    · rintro d ⟨⟩
      exact ⟨by decide, by decide, by decide, by decide, by decide⟩
    · rintro d ⟨⟩
      simp
  have hplainLength : plain.frame.length = 17 := by decide
  have hkeyedLength : keyed.frame.length = 19 := by decide
  refine ⟨?_, ?_, fun fs hfs hflat => ?_⟩
  · have hfirst := (hread _ _ hplain).2 [7] (keyed.frame ++ [9])
    rw [hplainLength] at hfirst
    exact hfirst
  · have hsecond := (hread _ _ hkeyed).2 ([7] ++ plain.frame) [9]
    rw [List.length_append, hplainLength, hkeyedLength, List.append_assoc] at hsecond
    exact hsecond
  · refine hrow fs _ hfs ?_ (hflat.trans (by simp))
    rintro f hf
    rcases List.mem_pair.mp hf with rfl | rfl
    · exact ⟨plain, hplain⟩
    · exact ⟨keyed, hkeyed⟩

end Link

end ContentAddressed
