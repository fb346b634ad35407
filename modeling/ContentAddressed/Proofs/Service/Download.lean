import ContentAddressed.Proofs.Http.Percent
import ContentAddressed.Proofs.Service.History
import Mathlib.Data.List.TakeWhile

/-!
# Downloads of what was uploaded

Once an upload is accepted, its contents are served under the name in the answer, in whatever way
the name is spelled in the path and whatever requests come between. A disk does not serve empty
contents, since it takes files of length zero as absent.
-/

namespace ContentAddressed

namespace Text

variable {sep : Char} {before after : List Char}

theorem splitList_append (h : sep ∉ before) :
    splitList sep (before ++ sep :: after) = before :: splitList sep after := by
  induction before with
  | nil => simp [splitList]
  | cons c cs ih =>
    rw [List.mem_cons, not_or] at h
    rw [List.cons_append, splitList, if_neg (Ne.symm h.1), ih h.2]

theorem splitList_of_not_mem {cs : List Char} (h : sep ∉ cs) : splitList sep cs = [cs] := by
  induction cs with
  | nil => rfl
  | cons c cs ih =>
    rw [List.mem_cons, not_or] at h
    rw [splitList, if_neg (Ne.symm h.1), ih h.2]

end Text

theorem Route.ofTarget_block {segment : String} (hne : segment ≠ "")
    (h : ∀ c ∈ segment.toList, c ≠ '/' ∧ c ≠ '?' ∧ c ≠ '#') :
    ofTarget ("/blocks/" ++ segment) = .block segment := by
  have hlist : ("/blocks/" ++ segment).toList =
      [] ++ '/' :: ("blocks".toList ++ '/' :: segment.toList) := by
    rw [String.toList_append]
    rfl
  have hpath : path ("/blocks/" ++ segment) = ("/blocks/" ++ segment).toList := by
    apply List.takeWhile_eq_self_iff.mpr
    intro c hc
    rw [String.toList_append, List.mem_append] at hc
    rcases hc with hc | hc
    · have hall : "/blocks/".toList.all fun c => c != '?' && c != '#' := by decide
      exact List.all_eq_true.mp hall c hc
    · simpa using (h c hc).2
  have hslash : '/' ∉ segment.toList := fun hmem => (h _ hmem).1 rfl
  have hpieces : Text.splitList '/' (path ("/blocks/" ++ segment)) =
      [[], "blocks".toList, segment.toList] := by
    rw [hpath, hlist, Text.splitList_append (by simp), Text.splitList_append (by decide),
      Text.splitList_of_not_mem hslash]
  have hempty : segment.isEmpty = false := by simpa using hne
  simp [ofTarget, hpieces, hempty]

namespace Service

section

variable {config : Config} {fs fs' : FileSystem} {s : Service Backing} {g r : Http.Incoming}
  {before between : List Http.Incoming} {parts : List Http.Part} {fp : Fingerprint} {bs : Bytes}
  {name segment : String}

def firstLine (bs : Bytes) : Bytes := bs.takeWhile (· != 0x0A)

theorem download_of_serves (hs : s.Realizes config) (h : s.store.medium.Serves fp.encode bs) :
    (s.download fp.encode).1 = .ok bs := by
  obtain ⟨v, hget, rfl⟩ := Backing.get_of_serves hs.isLocal fp.writable_encode h
  have hretrieve : (s.store.retrieve fp.encode).1 = .ok v := by
    rw [hs.plain, Store.plain, Store.retrieve]
    exact congrArg Prod.fst hget
  rw [download]
  simp only [hretrieve]
  rfl

theorem answer_of_serves [Http.Framework] (hs : s.Realizes config)
    (h : s.store.medium.Serves fp.encode bs)
    (hmethod : g.method = "GET") (htarget : g.target = "/blocks/" ++ segment)
    (hsegment : Http.SpellsText segment fp.encode) :
    (s.answer g).1 = ⟨200, some Http.octetStream, bs⟩ := by
  have hdecode := Http.percentDecode?_eq hsegment
  have hne : segment ≠ "" := by
    rintro rfl
    exact fp.encode_ne_empty (Option.some.inj (hdecode.symm.trans (Utf8.decode?_encode "")))
  have hroute := Route.ofTarget_block hne fun c hc => Http.ne_of_mem hsegment hc
  have hdownload := download_of_serves hs h
  have hanswer : (s.answerDownload segment).1 = ⟨200, some Http.octetStream, bs⟩ := by
    rw [answerDownload, hdecode]
    simp only
    split
    · next hd =>
      rw [hd] at hdownload
      cases hdownload
      rfl
    · next hd =>
      rw [hd] at hdownload
      cases hdownload
  simp [answer, hmethod, htarget, hroute, hanswer]

/-! ## Keeping -/

/-- A block that is accepted is served, if any earlier upload under its name had its contents. -/
theorem serves_keep (hs : s.Realizes config)
    (hearlier : ∀ e, (.text fp.encode, e) ∈ s.contents → e = .file bs)
    (hbs : bs ≠ [] ∨ s.store.medium.IsMemory) :
    (s.keep fp.encode bs).store.medium.Serves fp.encode bs := by
  change (s.store.medium.keep fp.encode bs).Serves fp.encode bs
  by_cases hhas : s.store.medium.has fp.encode
  · rw [Backing.keep, if_pos hhas]
    obtain ⟨e, he⟩ := Backing.exists_find?_of_has hs.isLocal hhas
    have hfile : e = .file bs := hearlier e (Folder.mem_of_find? he)
    exact ⟨hhas, hfile ▸ he⟩
  · rw [Backing.keep, if_neg hhas]
    exact Backing.serves_write hs.isLocal (by simpa using hhas) hbs

variable [Http.Framework]

theorem serves_answer (hs : s.Realizes config) (h : s.store.medium.Serves name bs) :
    (s.answer r).2.store.medium.Serves name bs := by
  rcases answer_cases hs r with ⟨parts, fp, bs', -, -, hr⟩ | ⟨hr, -⟩
  · rw [hr]
    exact h.keep hs.isLocal fp.encode bs'
  · rw [hr]
    exact h

theorem serves_run (hs : s.Realizes config) (h : s.store.medium.Serves name bs)
    (rs : List Http.Incoming) : (s.run rs).store.medium.Serves name bs := by
  induction rs generalizing s with
  | nil => exact h
  | cons r rs ih => exact ih (hs.answer r) (serves_answer hs h)

end

/-! ## A server over a disk -/

def requestFor (fp : Fingerprint) : Http.Incoming where
  target := "/blocks/" ++ Http.formEncode fp.encode

theorem spells_requestFor (fp : Fingerprint) :
    Http.SpellsText (Http.formEncode fp.encode) fp.encode := by
  apply Http.spells_formEncode
  rw [Utf8.encode_printable fp.printable_encode, Ascii.encode, List.mem_map]
  rintro ⟨c, hc, hspace⟩
  obtain ⟨-, hback⟩ := Ascii.isPrintable_toUInt8 (List.all_eq_true.mp fp.printable_encode c hc)
  rw [hspace] at hback
  exact fp.space_not_mem_encode (hback ▸ hc)

end Service

end ContentAddressed
