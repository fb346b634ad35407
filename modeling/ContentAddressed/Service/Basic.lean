import ContentAddressed.Config.Basic
import ContentAddressed.Service.Upload
import ContentAddressed.Store.Open

/-!
# The block server

A store that is offered over HTTP: anyone may download, and uploads show an authenticator.
-/

namespace ContentAddressed

structure Service (μ : Type) where
  store : Store μ
  authenticator : Secret
  /-- The longest body of a request, in bytes. -/
  maxUpload : Nat := ({} : ServerConfig).maxUploadBytes

namespace Service

variable {μ : Type}

/-- Whether a client that shows this text may upload; without an authenticator nobody may. -/
def authenticate (s : Service μ) (provided : String) : Bool :=
  !s.authenticator.isEmpty && provided == s.authenticator.value

/-- The server that settings describe: a disk without a cache, or memory. -/
def openConfig (config : Config) (fs : FileSystem) :
    Except Error (Service Backing × FileSystem) := do
  let (store, fs) ← match config.server.directory.or config.store.directory with
    | some directory => do
      let (disk, fs) ← fs.openDisk directory config.store.mmapThreshold
      pure (Store.plain (.disk disk), fs)
    | none => pure (Store.memory, fs)
  return (⟨store, config.server.authenticator, config.server.maxUploadBytes⟩, fs)

variable [Medium μ]

/-- Store an upload and bring it to the medium; the answer is the name of the block. -/
def upload (s : Service μ) (form : UploadForm) : Except ServiceError String × Service μ :=
  if s.authenticate (form.authenticator.getD "") then
    match form.block with
    | .error e => (.error e, s)
    | .ok (fp, contents) =>
      let (r, store) := match s.store.storeBytes fp.encode contents with
        | (.ok (), store) => store.flush
        | (.error e, store) => (.error e, store)
      ((r.map fun _ => fp.encode).mapError ServiceError.ofError, { s with store := store })
  else (.error .forbidden, s)

def download (s : Service μ) (name : String) : Except ServiceError Bytes × Service μ :=
  let (r, store) := s.store.retrieve name
  ((r.map StoredBytes.bytes).mapError ServiceError.ofError, { s with store := store })

end Service

end ContentAddressed
