import ContentAddressed.Medium.Remote
import ContentAddressed.Proofs.Service.Download

/-!
# Addresses of blocks

A client writes the name of a block as a form does, and the server reads it as a segment of a path.
The two agree on every character but the space, which comes out as a plus sign. What an address with
a dot or two for a name loses is its last segment.
-/

namespace ContentAddressed

/-! ## The written form of any text -/

namespace Http

def plusForSpace (t : String) : String :=
  String.ofList (t.toList.map fun c => if c = ' ' then '+' else c)

variable {t : String} {b : UInt8} {c : Char}

theorem space_not_mem_plusForSpace (t : String) : ' ' ∉ (plusForSpace t).toList := by
  rw [plusForSpace, String.toList_ofList, List.mem_map]
  rintro ⟨c, -, hc⟩
  split at hc
  · cases hc
  · next hspace => exact hspace hc

theorem plusForSpace_eq_self_iff : plusForSpace t = t ↔ ' ' ∉ t.toList := by
  constructor
  · intro h
    rw [← h]
    exact space_not_mem_plusForSpace t
  intro h
  have hkeep : ∀ c ∈ t.toList, (if c = ' ' then '+' else c) = c :=
    fun c hc => if_neg fun (hspace : c = ' ') => h (hspace ▸ hc)
  rw [plusForSpace, List.map_congr_left hkeep, List.map_id', String.ofList_toList]

theorem eq_of_plusForSpace_eq {u : String} (hu : '+' ∉ u.toList) (h : plusForSpace t = u) :
    t = u := by
  rw [← h] at hu ⊢
  refine (plusForSpace_eq_self_iff.mpr fun hspace => hu ?_).symm
  rw [plusForSpace, String.toList_ofList, List.mem_map]
  exact ⟨' ', hspace, if_pos rfl⟩

theorem printable_plusForSpace (ht : Ascii.printable t) : Ascii.printable (plusForSpace t) := by
  rw [Ascii.printable, plusForSpace, String.toList_ofList, List.all_map]
  refine List.all_eq_true.mpr fun c hc => ?_
  rw [Function.comp_apply]
  split
  · decide
  · exact List.all_eq_true.mp ht c hc

theorem encode_plusForSpace (ht : Ascii.printable t) :
    Utf8.encode (plusForSpace t) = (Utf8.encode t).map plusByte := by
  rw [Utf8.encode_printable ht, Utf8.encode_printable (printable_plusForSpace ht), Ascii.encode,
    Ascii.encode, plusForSpace, String.toList_ofList, List.map_map, List.map_map]
  refine List.map_congr_left fun c hc => ?_
  obtain ⟨-, hback⟩ := Ascii.isPrintable_toUInt8 (List.all_eq_true.mp ht c hc)
  rw [Function.comp_apply, Function.comp_apply, plusByte]
  by_cases hspace : c = ' '
  · subst hspace
    rfl
  · have hbyte : c.toUInt8 ≠ 0x20 := by
      rintro h
      rw [h] at hback
      exact hspace hback.symm
    rw [if_neg hspace, if_neg hbyte]

/-- What a server reads in the segment that a client writes. -/
theorem spells_formEncode_plus (ht : Ascii.printable t) :
    SpellsText (formEncode t) (plusForSpace t) := by
  rw [SpellsText, formEncode, String.toList_ofList, encode_plusForSpace ht]
  exact spells_flatMap _

/-! ## Segments that an address keeps -/

namespace Url

theorem plain_of_mem_formByte (hc : c ∈ formByte b) : c ≠ '\\' ∧ isHidden c = false := by
  have hall : (formByte b).all fun c => c != '\\' && !isHidden c :=
    forall_byte (p := fun b => (formByte b).all fun c => c != '\\' && !isHidden c)
      (by decide +kernel) b
  simpa using List.all_eq_true.mp hall c hc

variable {segment : List Char}

theorem lower_eq_iff {d : Char} (hd : d.toNat < 65 ∨ 90 < d.toNat) :
    Ascii.lower c = d ↔ c = d ∨ (65 ≤ c.toNat ∧ c.toNat ≤ 90) ∧ c.toNat + 32 = d.toNat := by
  have hupper : ('A' ≤ c ∧ c ≤ 'Z') ↔ 65 ≤ c.toNat ∧ c.toNat ≤ 90 := by
    simp [Char.le_def, UInt32.le_iff_toNat_le]
  rw [Ascii.lower]
  by_cases hc : 65 ≤ c.toNat ∧ c.toNat ≤ 90
  · have hne : c ≠ d := by
      rintro rfl
      omega
    rw [if_pos (hupper.mpr hc), ← Char.toNat_inj, Ascii.toNat_ofNat (by omega)]
    simp [hc, hne]
  · rw [if_neg (mt hupper.mp hc)]
    simp [hc]

theorem lower_eq_iff_of_lt {d : Char} (hd : d.toNat < 65) : Ascii.lower c = d ↔ c = d := by
  rw [lower_eq_iff (Or.inl hd), or_iff_left]
  omega

theorem lower_eq_e_iff : Ascii.lower c = 'e' ↔ c = 'e' ∨ c = 'E' := by
  have hE : ((65 ≤ c.toNat ∧ c.toNat ≤ 90) ∧ c.toNat + 32 = 'e'.toNat) ↔ c = 'E' := by
    rw [← Char.toNat_inj]
    change _ ∧ c.toNat + 32 = 101 ↔ c.toNat = 69
    omega
  rw [lower_eq_iff (Or.inr (by decide)), hE]

theorem lower_eq_dot_iff : Ascii.lower c = '.' ↔ c = '.' := lower_eq_iff_of_lt (by decide)

theorem lower_eq_percent_iff : Ascii.lower c = '%' ↔ c = '%' := lower_eq_iff_of_lt (by decide)

theorem lower_eq_two_iff : Ascii.lower c = '2' ↔ c = '2' := lower_eq_iff_of_lt (by decide)

/-- Whatever stands for its own directory is a spelling of a dot. -/
theorem percentDecodeBytes_of_isDot (h : isDot segment) :
    percentDecodeBytes segment = [0x2E] := by
  simp only [isDot, Ascii.lowercase, beq_iff_eq, Bool.or_eq_true, ← String.toList_inj,
    String.toList_ofList] at h
  simp only [String.reduceToList, List.map_eq_cons_iff, lower_eq_dot_iff, List.map_eq_nil_iff,
    exists_eq_right_right, exists_eq_right, lower_eq_percent_iff, lower_eq_two_iff,
    lower_eq_e_iff, ↓existsAndEq, true_and] at h
  rcases h with rfl | ⟨_, rfl, rfl | rfl⟩ <;> rfl

theorem percentDecodeBytes_of_isDotDot (h : isDotDot segment) :
    percentDecodeBytes segment = [0x2E, 0x2E] := by
  simp only [isDotDot, Ascii.lowercase, beq_iff_eq, Bool.or_eq_true, ← String.toList_inj,
    String.toList_ofList] at h
  simp only [String.reduceToList, List.map_eq_cons_iff, lower_eq_dot_iff, List.map_eq_nil_iff,
    exists_eq_right_right, exists_eq_right, lower_eq_percent_iff, lower_eq_two_iff,
    lower_eq_e_iff, ↓existsAndEq, true_and] at h
  rcases h with ((rfl | ⟨_, rfl, rfl | rfl⟩) | ⟨_, rfl, rfl | rfl⟩) |
    ⟨_, _, rfl, rfl | rfl, rfl | rfl⟩ <;> rfl

theorem isDot_formEncode_iff (ht : Ascii.printable t) : isDot (formEncode t).toList ↔ t = "." := by
  constructor
  · intro h
    have hbytes := percentDecodeBytes_eq (spells_formEncode_plus ht)
    rw [percentDecodeBytes_of_isDot h] at hbytes
    exact eq_of_plusForSpace_eq (by decide) (Utf8.encode_injective hbytes.symm)
  · rintro rfl
    decide

theorem isDotDot_formEncode_iff (ht : Ascii.printable t) :
    isDotDot (formEncode t).toList ↔ t = ".." := by
  constructor
  · intro h
    have hbytes := percentDecodeBytes_eq (spells_formEncode_plus ht)
    rw [percentDecodeBytes_of_isDotDot h] at hbytes
    exact eq_of_plusForSpace_eq (by decide) (Utf8.encode_injective hbytes.symm)
  · rintro rfl
    decide

def Plain (segment : List Char) : Prop := ∀ c ∈ segment, c ≠ '/' ∧ c ≠ '\\' ∧ isHidden c = false

theorem plain_formEncode (ht : Ascii.printable t) : Plain (formEncode t).toList := by
  intro c hc
  refine ⟨(ne_of_mem (spells_formEncode_plus ht) hc).1, ?_⟩
  rw [formEncode, String.toList_ofList, List.mem_flatMap] at hc
  obtain ⟨b, -, hc⟩ := hc
  exact plain_of_mem_formByte hc

theorem Plain.escape_eq_self (h : Plain segment) : escape segment = segment := by
  induction segment with
  | nil => rfl
  | cons c cs ih =>
    obtain ⟨hc, hcs⟩ := List.forall_mem_cons.mp h
    rw [escape, List.flatMap_cons, if_neg (by simp [hc.2.2])]
    exact congrArg (c :: ·) (ih hcs)

theorem Plain.map_slash (h : Plain segment) :
    segment.map (fun c => if c = '\\' then '/' else c) = segment := by
  rw [List.map_congr_left fun c hc => if_neg (h c hc).2.1, List.map_id']

theorem showPath_segment {folder : List Char} (hfolder : Plain folder) (h : Plain segment)
    (hdot : ¬ isDot folder) (hdots : ¬ isDotDot folder) :
    showPath ('/' :: (folder ++ '/' :: segment)) =
      if isDot segment then '/' :: (folder ++ ['/'])
      else if isDotDot segment then ['/']
      else '/' :: (folder ++ '/' :: segment) := by
  have hslashes : ('/' :: (folder ++ '/' :: segment)).map (fun c => if c = '\\' then '/' else c) =
      [] ++ '/' :: (folder ++ '/' :: segment) := by
    rw [List.map_cons, List.map_append, List.map_cons, hfolder.map_slash, h.map_slash]
    rfl
  have hpieces : Text.splitList '/' ([] ++ '/' :: (folder ++ '/' :: segment)) =
      [[], folder, segment] := by
    rw [Text.splitList_append (by simp), Text.splitList_append fun hc => (hfolder _ hc).1 rfl,
      Text.splitList_of_not_mem fun hc => (h _ hc).1 rfl]
  have hresolve : resolve [folder, segment] [] =
      if isDot segment then [folder, []] else if isDotDot segment then [[]]
      else [folder, segment] := by
    simp [resolve, hdot, hdots]
  have hnil : escape [] = [] := rfl
  rw [showPath, hslashes, hpieces, List.drop_succ_cons, List.drop_zero, hresolve]
  split
  · simp [hfolder.escape_eq_self, hnil]
  · split
    · simp [hnil]
    · simp [hfolder.escape_eq_self, h.escape_eq_self]

/-- A path keeps its last segment, unless that stands for a folder. -/
theorem showPath_eq_self_iff {folder : List Char} (hfolder : Plain folder) (h : Plain segment)
    (hdot : ¬ isDot folder) (hdots : ¬ isDotDot folder) (hne : segment ≠ []) :
    showPath ('/' :: (folder ++ '/' :: segment)) = '/' :: (folder ++ '/' :: segment) ↔
      ¬ isDot segment ∧ ¬ isDotDot segment := by
  rw [showPath_segment hfolder h hdot hdots]
  split
  · next hseg => simp [hseg, hne.symm]
  · next hseg =>
    split
    · next hsegs => simp [hsegs]
    · next hsegs => simp [hseg, hsegs]

end Url

end Http

/-! ## From the client to the server -/

namespace Service

variable {μ : Type} [Medium μ] [Http.Framework]

/-- The answer to a request for the block under a name. -/
def answerName (s : Service μ) (name : String) : Http.Response × Service μ :=
  match s.download name with
  | (.ok bs, s) => (⟨200, some Http.octetStream, bs⟩, s)
  | (.error e, s) => (e.response, s)

theorem answer_of_segment (s : Service μ) {target segment name : String}
    (hroute : Route.ofTarget target = .block segment)
    (hname : Http.percentDecode? segment = some name) :
    s.answer { target := target } = s.answerName name := by
  simp only [answer, hroute, answerDownload, hname]
  rfl

end Service

/-- The address of a block is the base and one more segment. A server reads in it the name with plus
signs for spaces, so every name without a space, whatever else is in it, is looked up as it is; and
an address keeps the segment, unless the name is a dot or two. -/
theorem Remote.downloadUrl_names {t : String} (hne : t ≠ "") (ht : Ascii.printable t) (r : Remote) :
    ∃ segment, r.downloadUrl t = r.downloadBase ++ "/" ++ segment ∧ '/' ∉ segment.toList ∧
      Http.percentDecode? segment = some (Http.plusForSpace t) ∧
      (Http.percentDecode? segment = some t ↔ ' ' ∉ t.toList) ∧
      (Http.Url.showPath ("/blocks/" ++ segment).toList = ("/blocks/" ++ segment).toList ↔
        t ≠ "." ∧ t ≠ "..") ∧
      ∀ (μ : Type) [Medium μ] [Http.Framework] (s : Service μ),
        s.answer { target := "/blocks/" ++ segment } = s.answerName (Http.plusForSpace t) := by
  have hspells := Http.spells_formEncode_plus ht
  have hdecode := Http.percentDecode?_eq hspells
  have hsegment : Http.formEncode t ≠ "" := by
    intro hempty
    rw [hempty] at hdecode
    exact hne (Http.eq_of_plusForSpace_eq (by simp)
      (Option.some.inj (hdecode.symm.trans (Utf8.decode?_encode ""))))
  refine ⟨Http.formEncode t, rfl, fun hslash => (Http.ne_of_mem hspells hslash).1 rfl, hdecode, ?_,
    ?_, fun μ _ _ s => ?_⟩
  · rw [hdecode, Option.some.injEq, Http.plusForSpace_eq_self_iff]
  · have hpath : ("/blocks/" ++ Http.formEncode t).toList =
        '/' :: ("blocks".toList ++ '/' :: (Http.formEncode t).toList) := by
      rw [String.toList_append]
      rfl
    have hnil : (Http.formEncode t).toList ≠ [] := fun h => hsegment (String.toList_eq_nil_iff.mp h)
    have hblocks : Http.Url.Plain "blocks".toList := by
      have hall : "blocks".toList.all fun c => c != '/' && c != '\\' && !Http.Url.isHidden c := by
        decide
      intro c hc
      simpa [and_assoc] using List.all_eq_true.mp hall c hc
    rw [hpath, Http.Url.showPath_eq_self_iff hblocks (Http.Url.plain_formEncode ht) (by decide)
      (by decide) hnil, Http.Url.isDot_formEncode_iff ht, Http.Url.isDotDot_formEncode_iff ht]
  · exact s.answer_of_segment
      (Route.ofTarget_block hsegment fun c hc => Http.ne_of_mem hspells hc) hdecode

/-- A name that is full of characters with a meaning in addresses. -/
theorem Remote.downloadUrl_names_reserved :
    let t := "../%2F?a=b#c+d;e:@f"
    let r : Remote := ⟨"http://h/blocks", "http://h/upload", {}, .unreachable⟩
    let segment := "..%2F%252F%3Fa%3Db%23c%2Bd%3Be%3A%40f"
    r.downloadUrl t = "http://h/blocks/" ++ segment ∧ Http.percentDecode? segment = some t ∧
      ∀ s : Service Memory, s.answer { target := "/blocks/" ++ segment } = s.answerName t := by
  intro t r segment
  have hurl : r.downloadUrl t = "http://h/blocks/" ++ segment := rfl
  obtain ⟨written, haddress, -, -, hdecode, -, hanswer⟩ :=
    downloadUrl_names (t := t) (by decide) (by decide) r
  obtain rfl : written = segment := (String.append_right_inj _).mp (haddress.symm.trans hurl)
  have hspace : ' ' ∉ t.toList := by decide
  refine ⟨hurl, hdecode.mpr hspace, fun s => ?_⟩
  rw [hanswer Memory s, Http.plusForSpace_eq_self_iff.mpr hspace]

/-- A block that has a space in its name is not found under its address. -/
theorem Remote.space_is_lost :
    let r : Remote := ⟨"http://blocks.example/blocks", "http://u.example/upload", {}, .unreachable⟩
    let s : Service Memory := { store := .plain ⟨[("a b", [1])]⟩, authenticator := {} }
    "a b" ≠ "" ∧ Ascii.printable "a b" ∧ r.downloadUrl "a b" = r.downloadBase ++ "/" ++ "a+b" ∧
      Http.percentDecode? "a+b" = some "a+b" ∧ "a+b" ≠ "a b" ∧
      (s.answerName "a b").1 = ⟨200, some Http.octetStream, [1]⟩ ∧
      (s.answer { target := "/blocks/" ++ "a+b" }).1.status = 410 := by
  intro r s
  exact ⟨by decide, by decide, rfl, rfl, by decide, rfl, rfl⟩

end ContentAddressed
