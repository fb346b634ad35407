import ContentAddressed.Proofs.Medium.Remote
import ContentAddressed.Proofs.Service.Download

/-!
# Clients and servers

A client that shows the secret of a server stores a block there and reads it back, whatever the
server was asked before and between. One that shows another secret, or sends bytes that do not have
the name, learns that it failed and leaves the server as it was.
-/

namespace ContentAddressed

/-- How a request of a client arrives at a server: the target is what follows the origin in the
address, and a form has the parts that were sent. -/
inductive Http.Request.Arrives (origin : String) : Http.Request → Http.Incoming → Prop
  | download {q : Http.Incoming} (method : q.method = "GET") :
    Arrives origin (.download (origin ++ q.target)) q
  | upload {q : Http.Incoming} {parts : List Http.Part} {boundary : String}
    (method : q.method = "POST")
    (kind : (q.contentType.bind Http.MediaType.parse?).bind Http.MediaType.formBoundary? =
      some boundary)
    (form : Http.Form.read? boundary q.body = some parts) :
    Arrives origin (.upload (origin ++ q.target) parts) q

theorem lastPart?_uploadParts (client : Remote) (fp : Fingerprint) (bs : Bytes) :
    Http.lastPart? (client.uploadParts fp.encode bs) Http.authenticatorField =
        some ⟨Http.authenticatorField, none, Utf8.encode client.authenticator.value⟩ ∧
      Http.lastPart? (client.uploadParts fp.encode bs) Http.digestField =
        some ⟨Http.digestField, none, Utf8.encode fp.algorithm.name⟩ ∧
      Http.lastPart? (client.uploadParts fp.encode bs) Http.nameField =
        some ⟨Http.nameField, none, Utf8.encode fp.encode⟩ ∧
      Http.lastValue? (client.uploadParts fp.encode bs) Http.contentsField = some bs := by
  rw [Remote.uploadParts_encode]
  exact ⟨rfl, rfl, rfl, rfl⟩

section

variable [Http.Framework]

/-- A client uploads bytes under a name to a server: the request arrives, within the limit for
bodies, and the answer comes back as the server gave it, before those to later requests. -/
structure Sending (client : Remote) (s : Service Backing) (name : String) (bs : Bytes) where
  origin : String
  request : Http.Incoming
  later : List Http.Response
  uploadUrl : client.uploadUrl = origin ++ "/upload"
  arrives :
    (Http.Request.upload client.uploadUrl (client.uploadParts name bs)).Arrives origin request
  short : request.body.length ≤ s.maxUpload
  answers : client.peer = .scripted ((s.answer request).1 :: later)

/-- A client downloads a name from a server: the request arrives and the answer comes back. -/
structure Asking (client : Remote) (s : Service Backing) (name : String) where
  origin : String
  request : Http.Incoming
  later : List Http.Response
  downloadBase : client.downloadBase = origin ++ "/blocks"
  arrives : (Http.Request.download (client.downloadUrl name)).Arrives origin request
  answers : client.peer = .scripted ((s.answer request).1 :: later)

def Sending.after {client : Remote} {s : Service Backing} {name : String} {bs : Bytes}
    (d : Sending client s name bs) : Remote :=
  { client with peer := .scripted d.later }

section Requests

variable {client : Remote} {s : Service Backing} {name : String} {bs : Bytes}

theorem Sending.uploads (d : Sending client s name bs) :
    d.request.Uploads s.maxUpload (client.uploadParts name bs) := by
  have harrives := d.arrives
  rw [d.uploadUrl] at harrives
  generalize hurl : d.origin ++ "/upload" = url at harrives
  cases harrives with
  | upload method kind form =>
    have htarget : d.request.target = "/upload" := ((String.append_right_inj _).mp hurl).symm
    have hroute : Route.ofTarget d.request.target = .upload := by
      rw [htarget, Route.ofTarget_upload]
    exact ⟨method, hroute, d.short, _, kind, form⟩

theorem Asking.request_eq (d : Asking client s name) :
    d.request.method = "GET" ∧ d.request.target = "/blocks/" ++ Http.formEncode name := by
  have harrives := d.arrives
  rw [Remote.downloadUrl_eq d.downloadBase] at harrives
  generalize hurl : d.origin ++ ("/blocks/" ++ Http.formEncode name) = url at harrives
  cases harrives with
  | download method => exact ⟨method, ((String.append_right_inj _).mp hurl).symm⟩

end Requests

/-! ## What the server makes of the form -/

section Form

variable {client : Remote} {secret : Secret} {fp fp' : Fingerprint} {bs bs' : Bytes}

/-- The form of a client brings its block to a server with the same secret, if the bytes have the
name, and nothing to any other server. -/
theorem brings_uploadParts (hcarried : Text.decodeBody (Utf8.encode client.authenticator.value) =
      client.authenticator.value) :
    Brings secret (client.uploadParts fp.encode bs) fp' bs' ↔
      client.authenticator = secret ∧ secret.value ≠ "" ∧ fp.isOf bs ∧ fp' = fp ∧ bs' = bs := by
  obtain ⟨hauth, hdigest, hname, hcontents⟩ := lastPart?_uploadParts client fp bs
  have hnameText : Http.lastText? (client.uploadParts fp.encode bs) Http.nameField =
      some fp.encode :=
    Http.lastText?_of_printable fp.printable_encode hname
  have hauthText : Http.lastText? (client.uploadParts fp.encode bs) Http.authenticatorField =
      some client.authenticator.value := by
    rw [Http.lastText?_plain hauth, hcarried]
  constructor
  · intro h
    obtain ⟨named, hnamed, hfp⟩ := h.expected
    obtain rfl : named = fp.encode := Option.some.inj (hnamed.symm.trans hnameText)
    obtain rfl : fp' = fp := Except.ok.inj (hfp.symm.trans fp.decode_trim_encode)
    obtain rfl : bs' = bs := Option.some.inj (h.contents.symm.trans hcontents)
    have hsecret : client.authenticator.value = secret.value :=
      Option.some.inj (hauthText.symm.trans h.authenticator)
    exact ⟨congrArg Secret.mk hsecret, h.secret_nonempty, h.matching, rfl, rfl⟩
  · rintro ⟨rfl, hnonempty, hof, rfl, rfl⟩
    refine ⟨hnonempty, hauthText, ⟨_, hnameText, fp'.decode_trim_encode⟩, fun named hnamed _ => ?_,
      hcontents, hof⟩
    rw [Http.lastText?_of_printable fp'.algorithm.printable_name hdigest, Option.some.injEq]
      at hnamed
    rw [← hnamed, Text.trim_eq fun _ => DigestAlgorithm.isBlank_of_mem_name,
      DigestAlgorithm.ofName?_name]

end Form

/-! ## What the client learns -/

namespace Sending

variable {config : Config} {client : Remote} {s : Service Backing} {name : String}
  {fp : Fingerprint} {bs : Bytes}

theorem put_of_brings (hs : s.Realizes config) (d : Sending client s fp.encode bs)
    (hbrings : Brings s.authenticator (client.uploadParts fp.encode bs) fp bs) :
    client.put fp.encode bs = (.ok (), d.after) := by
  have hpeer := d.answers
  rw [Service.answer_of_brings hs d.uploads hbrings] at hpeer
  rw [Remote.put_scripted hpeer (show (200 : Nat) ≠ 204 by decide), Service.textResponse,
    Remote.acceptUpload_echo fp.isBlank_of_mem_encode]
  rfl

theorem put_of_not_brings (d : Sending client s name bs)
    (h : ∀ fp' bs', ¬ Brings s.authenticator (client.uploadParts name bs) fp' bs') :
    (∃ cause, client.put name bs =
      (.error (.network ("POST " ++ client.uploadUrl) cause), d.after)) ∧
      (s.answer d.request).2 = s := by
  obtain ⟨hstatus, hstate⟩ := Service.answer_of_not_brings d.uploads h
  obtain ⟨cause, hcause⟩ := Remote.exists_acceptUpload_error name
    (show 300 ≤ (s.answer d.request).1.status by omega)
  refine ⟨⟨cause, ?_⟩, hstate⟩
  rw [Remote.put_scripted d.answers (by omega), hcause]
  rfl

end Sending

theorem Asking.get_of_serves {config : Config} {client : Remote} {s : Service Backing}
    {fp : Fingerprint} {bs : Bytes} (hs : s.Realizes config) (d : Asking client s fp.encode)
    (h : s.store.medium.Serves fp.encode bs) : (client.get fp.encode).1 = .ok ⟨bs, false⟩ := by
  obtain ⟨hmethod, htarget⟩ := d.request_eq
  have hpeer := d.answers
  rw [Service.answer_of_serves hs h hmethod htarget (Service.spells_requestFor fp)] at hpeer
  rw [Remote.get_scripted hpeer (show (200 : Nat) ≠ 204 by decide),
    Remote.acceptDownload_octetStream]

namespace Sending

variable {config : Config} {fs fs' : FileSystem} {client : Remote} {s : Service Backing}
  {before : List Http.Incoming} {fp : Fingerprint} {bs : Bytes}

/-- After any requests to a server that began with nothing, a client with its secret stores bytes
under their name, if no other bytes with that name are stored, and whatever the server is asked
next, a download gives them back. The upload of a client with another secret, or of bytes that do
not have the name, fails and changes nothing. Forms carry the secret as it is unless it begins with
a byte order mark. -/
theorem stores_or_refuses (hopen : Service.openConfig config fs = .ok (s, fs'))
    (hempty : s.contents = []) (d : Sending client (s.run before) fp.encode bs)
    (hcarried : Text.decodeBody (Utf8.encode client.authenticator.value) =
      client.authenticator.value) :
    (client.authenticator = config.server.authenticator → client.authenticator.value ≠ "" →
      fp.isOf bs → bs ≠ [] →
      (∀ name bs', (name, Entry.file bs') ∈ (s.run before).contents → fp.isOf bs' → bs' = bs) →
      ((s.run before).answer d.request).1 = Service.textResponse 200 (fp.encode ++ "\n") ∧
      client.put fp.encode bs = (.ok (), d.after) ∧
      ∀ between, Asking d.after (s.run (before ++ d.request :: between)) fp.encode →
        (d.after.get fp.encode).1 = .ok ⟨bs, false⟩) ∧
    (client.authenticator ≠ config.server.authenticator ∨ ¬ fp.isOf bs →
      (∃ cause, client.put fp.encode bs =
        (.error (.network ("POST " ++ client.uploadUrl) cause), d.after)) ∧
      ((s.run before).answer d.request).2 = s.run before) := by
  have hs : (s.run before).Realizes config := (Service.realizes_of_openConfig hopen).run before
  rw [← hs.authenticator]
  constructor
  · intro hsecret hnonempty hof hne hunique
    have hbrings := (brings_uploadParts hcarried).mpr
      ⟨hsecret, hsecret ▸ hnonempty, hof, rfl, rfl⟩
    have hanswer := Service.answer_of_brings hs d.uploads hbrings
    have hearlier : ∀ e, (.text fp.encode, e) ∈ (s.run before).contents → e = .file bs := by
      intro e he
      obtain ⟨fp', bs', ⟨_, -, _, -, hb⟩, heq⟩ := Service.sourced_of_mem hopen hempty he
      obtain ⟨hname, rfl⟩ := Prod.mk.inj heq
      obtain rfl := Fingerprint.encode_injective (FileName.text.inj hname)
      rw [hunique _ bs' he hb.matching]
    refine ⟨congrArg Prod.fst hanswer, d.put_of_brings hs hbrings, fun between asking => ?_⟩
    have hkept := hs.keep fp.encode bs
    have hserves := Service.serves_keep hs hearlier (Or.inl hne)
    rw [Service.run_append_cons, hanswer] at asking
    exact asking.get_of_serves (hkept.run between) (Service.serves_run hkept hserves between)
  · intro hfailed
    refine d.put_of_not_brings fun fp' bs' hbrings => ?_
    obtain ⟨hsecret, -, hof, -, -⟩ := (brings_uploadParts hcarried).mp hbrings
    exact hfailed.elim (fun hother => hother hsecret) fun hother => hother hof

end Sending

end

/-! ## A server over a disk -/

namespace Sending

/-- A client that shows a secret, and gets given answers. -/
def visitor (secret : String) (answers : List Http.Response) : Remote :=
  .connect ⟨"http://blocks.example/blocks/", "http://blocks.example/upload", ⟨secret⟩, 30⟩
    (.scripted answers)

def visitorUpload (secret : String) : Http.Incoming :=
  Service.uploadOf ((visitor secret []).uploadParts Service.trickyName.encode Service.tricky)

/-- What an empty disk answers to such an upload, and then to a request for the block. -/
def visitorAnswers (secret : String) : List Http.Response :=
  [(Service.emptyDisk.answer (visitorUpload secret)).1,
    ((Service.emptyDisk.run [visitorUpload secret]).answer
      (Service.requestFor Service.trickyName)).1]

/-- The visit of a client to the empty disk, if its form can be read. -/
def visitEmptyDisk (secret : String)
    (hshort : (visitorUpload secret).body.length ≤ Service.emptyDisk.maxUpload)
    (hform : Http.Form.read? "edge" (visitorUpload secret).body =
      some ((visitor secret []).uploadParts Service.trickyName.encode Service.tricky)) :
    Sending (visitor secret (visitorAnswers secret)) (Service.emptyDisk.run [])
      Service.trickyName.encode Service.tricky where
  origin := "http://blocks.example"
  request := visitorUpload secret
  later := (visitorAnswers secret).tail
  uploadUrl := rfl
  arrives := .upload rfl (Service.formBoundary_uploadOf _) hform
  short := hshort
  answers := rfl

theorem downloadBase_visitor (secret : String) (answers : List Http.Response) :
    (visitor secret answers).downloadBase = "http://blocks.example" ++ "/blocks" := by
  change Remote.trimSlashes "http://blocks.example/blocks/" = _
  rfl

/-- The request of a client for the block that it stored. -/
def askEmptyDisk (secret : String) : Asking (visitor secret (visitorAnswers secret).tail)
    (Service.emptyDisk.run [visitorUpload secret]) Service.trickyName.encode where
  origin := "http://blocks.example"
  request := Service.requestFor Service.trickyName
  later := []
  downloadBase := downloadBase_visitor secret _
  arrives := by
    rw [Remote.downloadUrl_eq (downloadBase_visitor secret _)]
    exact .download (q := Service.requestFor Service.trickyName) rfl
  answers := rfl

/-- A client with the secret stores a block on an empty disk and reads it back; one with another
secret does not. -/
theorem stores_or_refuses_disk :
    (∃ friend, (visitor "open sesame" (visitorAnswers "open sesame")).put
        Service.trickyName.encode Service.tricky = (.ok (), friend) ∧
      (friend.get Service.trickyName.encode).1 = .ok ⟨Service.tricky, false⟩) ∧
    ∃ cause stranger, (visitor "sesame" (visitorAnswers "sesame")).put
        Service.trickyName.encode Service.tricky =
      (.error (.network "POST http://blocks.example/upload" cause), stranger) := by
  let friend := visitEmptyDisk "open sesame" (by decide +kernel) (by decide +kernel)
  let stranger := visitEmptyDisk "sesame" (by decide +kernel) (by decide +kernel)
  constructor
  · have hcarried : Text.decodeBody (Utf8.encode "open sesame") = "open sesame" :=
      Text.decodeBody_printable (by decide)
    have hunique : ∀ name bs', (name, Entry.file bs') ∈ (Service.emptyDisk.run []).contents →
        Service.trickyName.isOf bs' → bs' = Service.tricky := by
      rintro _ _ ⟨⟩
    obtain ⟨-, hput, hget⟩ := (friend.stores_or_refuses Service.openConfig_guardedDisk rfl
      hcarried).1 rfl (by decide) Service.trickySample.isOf (by decide) hunique
    exact ⟨_, hput, hget [] (askEmptyDisk "open sesame")⟩
  · have hcarried : Text.decodeBody (Utf8.encode "sesame") = "sesame" :=
      Text.decodeBody_printable (by decide)
    obtain ⟨⟨cause, hput⟩, -⟩ := (stranger.stores_or_refuses Service.openConfig_guardedDisk rfl
      hcarried).2 (Or.inl (by decide))
    exact ⟨cause, _, hput⟩

end Sending

end ContentAddressed
