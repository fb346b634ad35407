import ContentAddressed.Medium.Remote
import ContentAddressed.Proofs.Fingerprint
import ContentAddressed.Proofs.Text.Lenient

/-!
# What a client makes of answers

A client asks once and looks at the answer: an upload is done if the answer repeats the name on its
first line, and a download holds the block if its content type is that of raw bytes.
-/

namespace ContentAddressed.Remote

variable {r : Remote} {name endpoint : String} {bs : Bytes} {answer : Http.Response}
  {later : List Http.Response}

theorem ask_scripted (h : answer.status ≠ 204) (request : Http.Request) :
    (Peer.scripted (answer :: later)).ask request = (.ok answer, .scripted later) := by
  rw [Peer.ask, Peer.deliver, if_neg h]

theorem put_scripted (hpeer : r.peer = .scripted (answer :: later)) (h : answer.status ≠ 204) :
    r.put name bs = ((acceptUpload name answer).mapError (.network ("POST " ++ r.uploadUrl)),
      { r with peer := .scripted later }) := by
  rw [put, hpeer, ask_scripted h]
  rfl

theorem get_scripted (hpeer : r.peer = .scripted (answer :: later)) (h : answer.status ≠ 204) :
    r.get name = (acceptDownload ("GET " ++ r.downloadUrl name) name answer,
      { r with peer := .scripted later }) := by
  rw [get, hpeer, ask_scripted h]
  rfl

/-! ## Uploads -/

theorem acceptUpload_echo {kind : Option String}
    (h : ∀ c ∈ name.toList, Text.isBlank c = false) :
    acceptUpload name ⟨200, kind, Utf8.encode (name ++ "\n")⟩ = .ok () := by
  have hline : ∀ c ∈ name.toList, (c != '\n') = true := by
    intro c hc
    rw [bne_iff_ne]
    rintro rfl
    exact absurd (h _ hc) (by decide)
  have hfirst : firstLine (name ++ "\n") = name := by
    rw [firstLine, String.toList_append, List.takeWhile_append_of_pos hline]
    simp
  rw [acceptUpload, Utf8.decodeLenient_encode, hfirst, Text.trim_eq h, if_pos rfl]
  rfl

theorem exists_acceptUpload_error (name : String) (h : 300 ≤ answer.status) :
    ∃ cause, acceptUpload name answer = .error cause := by
  rw [acceptUpload, if_pos (Or.inr h)]
  exact ⟨_, rfl⟩

/-! ## Downloads -/

theorem downloadUrl_eq {origin : String} (h : r.downloadBase = origin ++ "/blocks")
    (name : String) : r.downloadUrl name = origin ++ ("/blocks/" ++ Http.formEncode name) := by
  have hslash : "/blocks" ++ ("/" ++ Http.formEncode name) =
      "/blocks/" ++ Http.formEncode name := by
    rw [← String.append_assoc]
    rfl
  rw [downloadUrl, h, String.append_assoc, String.append_assoc, hslash]

theorem get_of_ask (h : (r.peer.ask (.download (r.downloadUrl name))).1 = .ok answer) :
    (r.get name).1 = acceptDownload ("GET " ++ r.downloadUrl name) name answer := by
  simp only [get, h]
  rfl

theorem acceptDownload_eq_ok (hstatus : answer.status = 200)
    (hkind : Ascii.equalsIgnoringCase (essence answer) Http.octetStream) :
    acceptDownload endpoint name answer = .ok ⟨answer.body, false⟩ := by
  simp [acceptDownload, hstatus, hkind]

theorem acceptDownload_octetStream :
    acceptDownload endpoint name ⟨200, some Http.octetStream, bs⟩ = .ok ⟨bs, false⟩ := by
  have hessence : Ascii.equalsIgnoringCase (essence ⟨200, some Http.octetStream, bs⟩)
      Http.octetStream := by
    change Ascii.equalsIgnoringCase (essence ⟨200, some Http.octetStream, []⟩) Http.octetStream
    decide
  exact acceptDownload_eq_ok rfl hessence

/-! ## Forms -/

theorem uploadParts_encode (r : Remote) (fp : Fingerprint) (bs : Bytes) :
    r.uploadParts fp.encode bs =
      [⟨Http.authenticatorField, none, Utf8.encode r.authenticator.value⟩,
       ⟨Http.digestField, none, Utf8.encode fp.algorithm.name⟩,
       ⟨Http.nameField, none, Utf8.encode fp.encode⟩,
       ⟨Http.contentsField, some Http.octetStream, bs⟩] := by
  rw [uploadParts, Fingerprint.decode_encode]
  rfl

end ContentAddressed.Remote
