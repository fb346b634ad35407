import ContentAddressed.Proofs.Fingerprint
import ContentAddressed.Proofs.Result
import ContentAddressed.Proofs.Text.Lenient
import ContentAddressed.Service.Basic
import Mathlib.Data.List.Induction

/-!
# Forms that bring a block

Of repeated fields the last one counts, with its text in the charset that it states. A form brings a
block under a secret if its last fields show the secret, name a fingerprint and hold contents with
that fingerprint.
-/

namespace ContentAddressed

namespace Http

section

variable {parts : List Part} {field : String}

def lastPart? (parts : List Part) (field : String) : Option Part :=
  parts.reverse.find? fun p => p.name = field

def lastValue? (parts : List Part) (field : String) : Option Bytes :=
  (lastPart? parts field).map Part.value

theorem lastPart?_append (parts : List Part) (p : Part) (field : String) :
    lastPart? (parts ++ [p]) field = if p.name = field then some p else lastPart? parts field := by
  by_cases h : p.name = field <;> simp [lastPart?, h]

theorem lastValue?_append (parts : List Part) (p : Part) (field : String) :
    lastValue? (parts ++ [p]) field =
      if p.name = field then some p.value else lastValue? parts field := by
  by_cases h : p.name = field <;> simp [lastValue?, lastPart?_append, h]

variable [Framework]

def lastText? (parts : List Part) (field : String) : Option String :=
  (lastPart? parts field).map Part.text

theorem lastText?_append (parts : List Part) (p : Part) (field : String) :
    lastText? (parts ++ [p]) field =
      if p.name = field then some p.text else lastText? parts field := by
  by_cases h : p.name = field <;> simp [lastText?, lastPart?_append, h]

/-- A field without a content type is read as UTF-8. -/
theorem Part.text_plain (name : String) (bs : Bytes) :
    (Part.mk name none bs).text = Text.decodeBody bs :=
  rfl

theorem lastText?_plain {bs : Bytes} (h : lastPart? parts field = some ⟨field, none, bs⟩) :
    lastText? parts field = some (Text.decodeBody bs) := by
  rw [lastText?, h, Option.map_some, Part.text_plain]

theorem lastText?_of_printable {text : String} (ht : Ascii.printable text)
    (h : lastPart? parts field = some ⟨field, none, Utf8.encode text⟩) :
    lastText? parts field = some text := by
  rw [lastText?_plain h, Text.decodeBody_printable ht]

end

/-- The charsets that are known here read a printable text as it is, whichever of them a field
states, but for those of two-byte units. -/
theorem Part.text_labelled {p : Part} {label text : String} {c : Text.Charset}
    (hlabel : p.charset? = some label) (hc : label ∈ c.labels)
    (hbytes : ∀ bigEndian, c ≠ .utf16 bigEndian) (ht : Ascii.printable text)
    (hvalue : p.value = Utf8.encode text) : p.text = text := by
  have hdecoder : p.decoder = c.decode := by
    simp [Part.decoder, hlabel, Framework.charset?, Text.Charset.ofLabel?_eq_some_of_mem hc]
  rw [Part.text, hvalue, hdecoder,
    Text.decodeAs_encode _ (Text.head?_ne_mark_of_printable ht),
    Text.Charset.decode_printable hbytes ht]

end Http

theorem Fingerprint.decode_trim_encode (fp : Fingerprint) :
    decode (Text.trim fp.encode) = .ok fp := by
  rw [Text.trim_eq fp.isBlank_of_mem_encode, fp.decode_encode]

/-- What a form has to state to bring a block to a server with this secret. -/
structure Brings [Http.Framework] (secret : Secret) (parts : List Http.Part) (fp : Fingerprint)
    (bs : Bytes) : Prop where
  secret_nonempty : secret.value ≠ ""
  authenticator : Http.lastText? parts Http.authenticatorField = some secret.value
  expected : ∃ name, Http.lastText? parts Http.nameField = some name ∧
    Fingerprint.decode (Text.trim name) = .ok fp
  digest : ∀ named, Http.lastText? parts Http.digestField = some named → Text.trim named ≠ "" →
    DigestAlgorithm.ofName? (Text.trim named) = some fp.algorithm
  contents : Http.lastValue? parts Http.contentsField = some bs
  matching : fp.isOf bs

namespace UploadForm

/-- Adding the fields one by one leaves the last one of each name. -/
theorem ofParts_eq [Http.Framework] (parts : List Http.Part) :
    ofParts parts = ⟨Http.lastText? parts Http.authenticatorField,
      Http.lastText? parts Http.digestField, Http.lastText? parts Http.nameField,
      Http.lastValue? parts Http.contentsField⟩ := by
  induction parts using List.reverseRecOn with
  | nil => rfl
  | append_singleton parts p ih =>
    have hadd : ofParts (parts ++ [p]) = (ofParts parts).add p := by simp [ofParts]
    rw [hadd, ih]
    simp only [add, Http.lastText?_append, Http.lastValue?_append]
    -- the names of the fields differ, so at most one of the tests holds
    unfold Http.authenticatorField Http.digestField Http.nameField Http.contentsField
    split_ifs <;> simp_all

variable {f : UploadForm} {fp : Fingerprint} {bs : Bytes}

theorem checkDigest_eq_ok_iff :
    f.checkDigest fp = .ok () ↔ ∀ named, f.digest = some named → Text.trim named ≠ "" →
      DigestAlgorithm.ofName? (Text.trim named) = some fp.algorithm := by
  rw [checkDigest]
  cases f.digest with
  | none => simp
  | some named =>
    by_cases hblank : Text.trim named = ""
    · simp [hblank, Result.pure_eq_ok_iff]
    · have hempty : (Text.trim named).isEmpty = false := by simpa using hblank
      simp [hempty, hblank, Result.bind_eq_ok_iff, Result.mapError_eq_ok_iff,
        Fingerprint.algorithmNamed_eq_ok_iff, Result.ite_throw_eq_ok_iff, Result.pure_eq_ok_iff]

theorem block_eq_ok_iff :
    f.block = .ok (fp, bs) ↔
      (∃ name, f.expected = some name ∧ Fingerprint.decode (Text.trim name) = .ok fp) ∧
        f.checkDigest fp = .ok () ∧ f.contents = some bs ∧ fp.isOf bs := by
  rw [block]
  cases f.expected with
  | none => simp
  | some name =>
    cases f.contents with
    | none => simp [Result.bind_eq_ok_iff, throw, throwThe, MonadExceptOf.throw]
    | some found =>
      simp only [Result.bind_eq_ok_iff, Result.mapError_eq_ok_iff, Result.ite_throw_eq_ok_iff,
        Result.pure_eq_ok_iff, Option.some.injEq, exists_eq_left', Prod.mk.injEq]
      constructor
      · rintro ⟨fp, hfp, ⟨⟩, hdigest, hof, rfl, rfl⟩
        exact ⟨hfp, hdigest, rfl, hof⟩
      · rintro ⟨hfp, hdigest, rfl, hof⟩
        exact ⟨fp, hfp, (), hdigest, hof, rfl, rfl⟩

end UploadForm

theorem Service.authenticate_getD_iff {μ : Type} {s : Service μ} {shown : Option String} :
    s.authenticate (shown.getD "") ↔
      s.authenticator.value ≠ "" ∧ shown = some s.authenticator.value := by
  rw [authenticate, Secret.isEmpty]
  cases shown with
  | none => simp
  | some provided => simp

theorem brings_iff [Http.Framework] {μ : Type} {s : Service μ} {parts : List Http.Part}
    {fp : Fingerprint} {bs : Bytes} :
    Brings s.authenticator parts fp bs ↔
      s.authenticate ((UploadForm.ofParts parts).authenticator.getD "") ∧
        (UploadForm.ofParts parts).block = .ok (fp, bs) := by
  rw [Service.authenticate_getD_iff, UploadForm.block_eq_ok_iff,
    UploadForm.checkDigest_eq_ok_iff, UploadForm.ofParts_eq]
  constructor
  · intro h
    exact ⟨⟨h.secret_nonempty, h.authenticator⟩, h.expected, h.digest, h.contents, h.matching⟩
  · rintro ⟨⟨hsecret, hauth⟩, hname, hdigest, hcontents, hof⟩
    exact ⟨hsecret, hauth, hname, hdigest, hcontents, hof⟩

end ContentAddressed
