import ContentAddressed.Proofs.Service.Answer

/-!
# Histories of a server

Whatever requests a server over memory or a disk has answered, each name that it stores spells a
fingerprint of the bytes under it, because an accepted upload brought them. Only an upload that is
answered 200 changes what is stored.
-/

namespace ContentAddressed

namespace Service

section

variable [Http.Framework]

def run (s : Service Backing) (rs : List Http.Incoming) : Service Backing :=
  rs.foldl (fun s r => (s.answer r).2) s

/-- A block that an upload among the requests brings. -/
def Uploaded (config : Config) (rs : List Http.Incoming) (fp : Fingerprint) (bs : Bytes) : Prop :=
  ∃ r ∈ rs, ∃ parts, r.Uploads config.server.maxUploadBytes parts ∧
    Brings config.server.authenticator parts fp bs

def Sourced (config : Config) (rs : List Http.Incoming) (e : FileName × Entry) : Prop :=
  ∃ fp bs, Uploaded config rs fp bs ∧ e = (.text fp.encode, .file bs)

variable {config : Config} {fs fs' : FileSystem} {s : Service Backing} {r : Http.Incoming}
  {rs rs' : List Http.Incoming} {e : FileName × Entry}

theorem run_append (s : Service Backing) (rs rs' : List Http.Incoming) :
    s.run (rs ++ rs') = (s.run rs).run rs' :=
  List.foldl_append

theorem run_append_cons (s : Service Backing) (before : List Http.Incoming) (r : Http.Incoming)
    (between : List Http.Incoming) :
    s.run (before ++ r :: between) = ((s.run before).answer r).2.run between := by
  rw [run_append]
  rfl

theorem Sourced.mono (h : Sourced config rs e) (hsub : rs ⊆ rs') : Sourced config rs' e := by
  obtain ⟨fp, bs, ⟨r, hr, h⟩, he⟩ := h
  exact ⟨fp, bs, ⟨r, hsub hr, h⟩, he⟩

theorem Realizes.answer (hs : s.Realizes config) (r : Http.Incoming) :
    (s.answer r).2.Realizes config := by
  rcases answer_cases hs r with ⟨parts, fp, bs, -, -, h⟩ | ⟨h, -⟩
  · rw [h]
    exact hs.keep fp.encode bs
  · rw [h]
    exact hs

theorem Realizes.run (hs : s.Realizes config) (rs : List Http.Incoming) :
    (s.run rs).Realizes config := by
  induction rs generalizing s with
  | nil => exact hs
  | cons r rs ih => exact ih (hs.answer r)

/-- A request that changes the server is an upload that is answered 200, and sets one entry. -/
theorem answer_changes (hs : s.Realizes config) (hne : (s.answer r).2 ≠ s) :
    (s.answer r).1.status = 200 ∧ ∃ parts fp bs,
      r.Uploads config.server.maxUploadBytes parts ∧
      Brings config.server.authenticator parts fp bs ∧
      (s.answer r).2.contents = s.contents.set (.text fp.encode) (.file bs) := by
  rcases answer_cases hs r with ⟨parts, fp, bs, hr, hb, h⟩ | ⟨h, -⟩
  · rw [hs.maxUpload] at hr
    rw [hs.authenticator] at hb
    rw [h] at hne ⊢
    exact ⟨rfl, parts, fp, bs, hr, hb, (contents_keep hs fp.encode bs).resolve_left hne⟩
  · exact absurd h hne

theorem mem_contents_answer (hs : s.Realizes config) (he : e ∈ (s.answer r).2.contents) :
    e ∈ s.contents ∨ Sourced config [r] e := by
  by_cases hne : (s.answer r).2 = s
  · rw [hne] at he
    exact Or.inl he
  · obtain ⟨-, parts, fp, bs, hr, hb, hset⟩ := answer_changes hs hne
    rw [hset] at he
    rcases Folder.mem_of_mem_set he with rfl | he
    · exact Or.inr ⟨fp, bs, ⟨r, List.mem_singleton_self r, parts, hr, hb⟩, rfl⟩
    · exact Or.inl he

/-- What is stored after a history was there before it, or an upload brought it. -/
theorem mem_contents_run (hs : s.Realizes config) (he : e ∈ (s.run rs).contents) :
    e ∈ s.contents ∨ Sourced config rs e := by
  induction rs generalizing s with
  | nil => exact Or.inl he
  | cons r rs ih =>
    rcases ih (hs.answer r) he with he | he
    · rcases mem_contents_answer hs he with he | he
      · exact Or.inl he
      · exact Or.inr (he.mono (by simp))
    · exact Or.inr (he.mono (by simp))

theorem sourced_of_mem (hopen : openConfig config fs = .ok (s, fs')) (hempty : s.contents = [])
    (he : e ∈ (s.run rs).contents) : Sourced config rs e := by
  rcases mem_contents_run (realizes_of_openConfig hopen) he with he | he
  · rw [hempty] at he
    cases he
  · exact he

end

/-! ## A server over a disk -/

def guardedDisk : Config :=
  { server := { directory := some "blocks", authenticator := ⟨"open sesame"⟩ } }

/-- The server over such a disk, in a directory that it made. -/
def emptyDisk : Service Backing where
  store := .plain (.disk ⟨"blocks", guardedDisk.store.mmapThreshold, []⟩)
  authenticator := guardedDisk.server.authenticator
  maxUpload := guardedDisk.server.maxUploadBytes

/-- Contents that look like the end of a part. -/
def tricky : Bytes := [0x0D, 0x0A, 0x2D, 0x2D]

def trickyName : Fingerprint where
  algorithm := .sha1
  digest := [0x6A, 0xD6, 0x18, 0x78, 0x4E, 0xF9, 0x47, 0x55, 0x26, 0xFE,
    0xC4, 0x7F, 0x04, 0x66, 0x55, 0x9A, 0x78, 0x8B, 0x4A, 0x49]
  length_digest := rfl

/-- The parts of a form that brings a block, with a type for the bytes of the secret. -/
def partsAs (kind : Option String) (secret : Bytes) (fp : Fingerprint) (bs : Bytes) :
    List Http.Part :=
  [⟨Http.authenticatorField, kind, secret⟩, ⟨Http.nameField, none, Utf8.encode fp.encode⟩,
   ⟨Http.contentsField, none, bs⟩]

def partsOf (secret : String) (fp : Fingerprint) (bs : Bytes) : List Http.Part :=
  partsAs none (Utf8.encode secret) fp bs

def uploadOf (parts : List Http.Part) : Http.Incoming where
  method := "POST"
  target := "/upload"
  contentType := some "multipart/form-data; boundary=edge"
  body := Http.Form.write "edge" parts

theorem formBoundary_uploadOf (parts : List Http.Part) :
    ((uploadOf parts).contentType.bind Http.MediaType.parse?).bind Http.MediaType.formBoundary? =
      some "edge" := by
  change ((some "multipart/form-data; boundary=edge").bind Http.MediaType.parse?).bind
    Http.MediaType.formBoundary? = some "edge"
  rfl

theorem uploads_uploadOf {limit : Nat} {parts : List Http.Part}
    (hshort : (uploadOf parts).body.length ≤ limit)
    (hform : Http.Form.read? "edge" (uploadOf parts).body = some parts) :
    (uploadOf parts).Uploads limit parts :=
  ⟨rfl, Route.ofTarget_upload, hshort, "edge", formBoundary_uploadOf parts, hform⟩

theorem openConfig_guardedDisk :
    openConfig guardedDisk {} = .ok (emptyDisk, ⟨[([.text "blocks"], .folder)]⟩) :=
  rfl

/-- A block under its own name, in a form that the disk can read. -/
structure Sample where
  name : Fingerprint
  contents : Bytes
  isOf : name.isOf contents
  short : (uploadOf (partsOf "open sesame" name contents)).body.length ≤
    guardedDisk.server.maxUploadBytes
  readable : Http.Form.read? "edge" (uploadOf (partsOf "open sesame" name contents)).body =
    some (partsOf "open sesame" name contents)

namespace Sample

variable (b : Sample)

def parts : List Http.Part := partsOf "open sesame" b.name b.contents

theorem uploads : (uploadOf b.parts).Uploads guardedDisk.server.maxUploadBytes b.parts :=
  uploads_uploadOf b.short b.readable

end Sample

def trickySample : Sample where
  name := trickyName
  contents := tricky
  isOf := by decide +kernel
  short := by decide +kernel
  readable := by decide +kernel

end Service

end ContentAddressed
