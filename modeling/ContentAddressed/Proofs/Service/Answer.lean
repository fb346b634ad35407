import ContentAddressed.Proofs.Medium.Local
import ContentAddressed.Proofs.Service.Form
import ContentAddressed.Service.Route

/-!
# What a request does

A server over memory or a disk is left as it is by every request but one: an upload whose form
brings a block, which is answered with the name of the block and kept.
-/

namespace ContentAddressed

/-- A request that sends a form to be uploaded, within the limit for bodies. -/
structure Http.Incoming.Uploads (r : Http.Incoming) (limit : Nat) (parts : List Http.Part) :
    Prop where
  method : r.method = "POST"
  route : Route.ofTarget r.target = .upload
  short : r.body.length ≤ limit
  form : ∃ boundary,
    (r.contentType.bind Http.MediaType.parse?).bind Http.MediaType.formBoundary? = some boundary ∧
      Http.Form.read? boundary r.body = some parts

theorem Http.Incoming.Uploads.unique {r : Http.Incoming} {limit : Nat}
    {parts parts' : List Http.Part} (h : r.Uploads limit parts) (h' : r.Uploads limit parts') :
    parts = parts' := by
  obtain ⟨boundary, hboundary, hform⟩ := h.form
  obtain ⟨boundary', hboundary', hform'⟩ := h'.form
  obtain rfl : boundary = boundary' := Option.some.inj (hboundary.symm.trans hboundary')
  exact Option.some.inj (hform.symm.trans hform')

theorem Route.ofTarget_upload : ofTarget "/upload" = .upload :=
  rfl

theorem ServiceError.le_status (e : ServiceError) : 400 ≤ e.response.status := by
  cases e <;> simp [response, status]

namespace Service

/-- A server that settings describe, whatever it stores by now. -/
structure Realizes (s : Service Backing) (config : Config) : Prop where
  plain : s.store = .plain s.store.medium
  isLocal : s.store.medium.IsLocal
  memory : config.server.directory.or config.store.directory = none → s.store.medium.IsMemory
  authenticator : s.authenticator = config.server.authenticator
  maxUpload : s.maxUpload = config.server.maxUploadBytes

def contents (s : Service Backing) : Folder := s.store.medium.contents

def keep (s : Service Backing) (name : String) (bs : Bytes) : Service Backing :=
  { s with store := .plain (s.store.medium.keep name bs) }

variable {config : Config} {fs fs' : FileSystem} {s : Service Backing} {r : Http.Incoming}
  {parts : List Http.Part} {fp : Fingerprint} {bs : Bytes}

theorem realizes_of_openConfig (h : openConfig config fs = .ok (s, fs')) : s.Realizes config := by
  rw [openConfig] at h
  cases hdir : config.server.directory.or config.store.directory with
  | none =>
    simp only [hdir, pure, Except.pure, bind, Except.bind, Except.ok.injEq, Prod.mk.injEq] at h
    obtain ⟨rfl, -⟩ := h
    exact ⟨rfl, .memory _, fun _ => .memory _, rfl, rfl⟩
  | some directory =>
    rw [hdir, Result.bind_eq_ok_iff] at h
    obtain ⟨⟨disk, fs₁⟩, -, h⟩ := h
    cases h
    refine ⟨rfl, .disk _, fun hnone => ?_, rfl, rfl⟩
    rw [hdir] at hnone
    cases hnone

theorem Realizes.keep (hs : s.Realizes config) (name : String) (bs : Bytes) :
    (s.keep name bs).Realizes config :=
  ⟨rfl, hs.isLocal.keep name bs, fun h => (hs.memory h).keep name bs, hs.authenticator,
    hs.maxUpload⟩

theorem keep_of_has (hs : s.Realizes config) {name : String} (h : s.store.medium.has name) :
    s.keep name bs = s := by
  rw [keep, Backing.keep, if_pos h, ← hs.plain]

theorem contents_keep (hs : s.Realizes config) (name : String) (bs : Bytes) :
    s.keep name bs = s ∨
      (s.keep name bs).contents = s.contents.set (.text name) (.file bs) := by
  by_cases h : s.store.medium.has name
  · exact Or.inl (keep_of_has hs h)
  · right
    rw [contents, keep, Store.plain, Store.medium, Backing.keep, if_neg h]
    exact Backing.contents_write hs.isLocal (by simpa using h) bs

theorem download_state (hs : s.Realizes config) (name : String) : (s.download name).2 = s := by
  have hget := Backing.get_state hs.isLocal name
  have hretrieve : (s.store.retrieve name).2 = s.store := by
    rw [hs.plain, Store.plain, Store.retrieve]
    exact congrArg (Store.base · []) hget
  rw [download]
  simp only [hretrieve]

variable [Http.Framework]

/-! ## Uploads -/

theorem upload_of_brings (hs : s.Realizes config) (h : Brings s.authenticator parts fp bs) :
    s.upload (.ofParts parts) = (.ok fp.encode, s.keep fp.encode bs) := by
  obtain ⟨hauth, hblock⟩ := brings_iff.mp h
  have hput := Backing.put_eq hs.isLocal fp.writable_encode bs
  have hstore : s.store.storeBytes fp.encode bs =
      (.ok (), .plain (s.store.medium.keep fp.encode bs)) := by
    rw [hs.plain, Store.plain, Store.storeBytes]
    exact congrArg (fun p => (p.1, Store.base p.2 [])) hput
  have hflush : ∀ m : Backing, (Store.plain m).flush = (.ok (), .plain m) := by
    intro m
    rw [Store.plain, Store.flush]
  rw [upload, if_pos hauth, hblock]
  simp only [hstore, hflush]
  rfl

theorem upload_of_not_brings (h : ∀ fp bs, ¬ Brings s.authenticator parts fp bs) :
    ∃ e, s.upload (.ofParts parts) = (.error e, s) := by
  rw [upload]
  by_cases hauth : s.authenticate ((UploadForm.ofParts parts).authenticator.getD "")
  · cases hblock : (UploadForm.ofParts parts).block with
    | error e => exact ⟨e, by simp [hauth]⟩
    | ok block => exact absurd (brings_iff.mpr ⟨hauth, hblock⟩) (h block.1 block.2)
  · exact ⟨.forbidden, by simp [hauth]⟩

theorem answer_of_uploads (h : r.Uploads s.maxUpload parts) : s.answer r = s.answerForm parts := by
  obtain ⟨boundary, hboundary, hform⟩ := h.form
  simp [answer, h.route, h.method, answerUpload, hboundary, h.short, hform]

theorem answer_of_brings (hs : s.Realizes config) (hr : r.Uploads s.maxUpload parts)
    (h : Brings s.authenticator parts fp bs) :
    s.answer r = (textResponse 200 (fp.encode ++ "\n"), s.keep fp.encode bs) := by
  rw [answer_of_uploads hr, answerForm, upload_of_brings hs h]

theorem answer_of_not_brings (hr : r.Uploads s.maxUpload parts)
    (h : ∀ fp bs, ¬ Brings s.authenticator parts fp bs) :
    400 ≤ (s.answer r).1.status ∧ (s.answer r).2 = s := by
  obtain ⟨e, he⟩ := upload_of_not_brings h
  rw [answer_of_uploads hr, answerForm, he]
  exact ⟨e.le_status, rfl⟩

theorem answerDownload_state (hs : s.Realizes config) (segment : String) :
    (s.answerDownload segment).2 = s := by
  rw [answerDownload]
  split
  · rfl
  · next name _ =>
    have h := download_state hs name
    split <;> next hd => rw [hd] at h; exact h

/-- An upload whose form cannot be read changes nothing. -/
theorem answerUpload_state (hmethod : r.method = "POST")
    (hroute : Route.ofTarget r.target = .upload) (h : ∀ parts, ¬ r.Uploads s.maxUpload parts) :
    (s.answerUpload r).2 = s := by
  cases hboundary :
      (r.contentType.bind Http.MediaType.parse?).bind Http.MediaType.formBoundary? with
  | none => simp [answerUpload, hboundary]
  | some boundary =>
    by_cases hshort : r.body.length ≤ s.maxUpload
    · cases hform : Http.Form.read? boundary r.body with
      | none => simp [answerUpload, hboundary, hform]
      | some parts =>
        exact absurd ⟨hmethod, hroute, hshort, boundary, hboundary, hform⟩ (h parts)
    · simp [answerUpload, hboundary, hshort]

theorem answer_of_not_uploads (hs : s.Realizes config)
    (h : ∀ parts, ¬ r.Uploads s.maxUpload parts) : (s.answer r).2 = s := by
  rw [answer]
  cases hroute : Route.ofTarget r.target with
  | nowhere => rfl
  | health => rfl
  | block segment =>
    by_cases hreading : r.method == "GET" || r.method == "HEAD"
    · simp [hreading, answerDownload_state hs segment]
    · simp [hreading]
  | upload =>
    by_cases hmethod : r.method = "POST"
    · simp [hmethod, answerUpload_state hmethod hroute h]
    · simp [hmethod]

/-- Everything that a request can do: keep the block that an upload brings, and name it in the
answer, or leave the server as it is; an upload that does so is refused. -/
theorem answer_cases (hs : s.Realizes config) (r : Http.Incoming) :
    (∃ parts fp bs, r.Uploads s.maxUpload parts ∧ Brings s.authenticator parts fp bs ∧
      s.answer r = (textResponse 200 (fp.encode ++ "\n"), s.keep fp.encode bs)) ∨
    (s.answer r).2 = s ∧ ∀ parts, r.Uploads s.maxUpload parts → (s.answer r).1.status ≠ 200 := by
  by_cases hr : ∃ parts, r.Uploads s.maxUpload parts
  · obtain ⟨parts, hr⟩ := hr
    by_cases hb : ∃ fp bs, Brings s.authenticator parts fp bs
    · obtain ⟨fp, bs, hb⟩ := hb
      exact Or.inl ⟨parts, fp, bs, hr, hb, answer_of_brings hs hr hb⟩
    · push Not at hb
      obtain ⟨hstatus, hstate⟩ := answer_of_not_brings hr hb
      exact Or.inr ⟨hstate, fun _ _ => by omega⟩
  · push Not at hr
    exact Or.inr ⟨answer_of_not_uploads hs hr, fun parts hparts => absurd hparts (hr parts)⟩

end Service

end ContentAddressed
