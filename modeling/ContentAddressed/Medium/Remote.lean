import ContentAddressed.Http.Message
import ContentAddressed.Http.Percent
import ContentAddressed.Http.Url
import ContentAddressed.Medium.Basic

/-!
# Remote: blocks exchanged with a peer

Blocks are downloaded by address and uploaded as a form; the first line of the answer to an upload
repeats the name. A request is sent once.
-/

namespace ContentAddressed

/-- A text that must not be shown. -/
structure Secret where
  value : String := ""
  deriving DecidableEq, Repr, Inhabited

namespace Secret

def isEmpty (s : Secret) : Bool := s.value.isEmpty

def describe (_ : Secret) : String := "Secret([REDACTED])"

end Secret

structure RemoteConfig where
  downloadBase : String
  uploadUrl : String
  authenticator : Secret := {}
  timeoutSecs : Nat := 30
  deriving DecidableEq, Repr, Inhabited

/-- The far end of the connection. -/
inductive Peer where
  /-- No request arrives. -/
  | unreachable
  /-- Each request gets the next answer, and the status 404 after the last one. -/
  | scripted (answers : List Http.Response)

namespace Peer

/-- A response as it arrives: one with status 204 has no body. -/
def deliver (r : Http.Response) : Http.Response :=
  if r.status = 204 then { r with body := [] } else r

def ask (p : Peer) (request : Http.Request) : Except PeerError Http.Response × Peer :=
  match p with
  | unreachable => (.error (.unreachable (Http.Url.display request.url)), unreachable)
  | scripted [] => (.ok ⟨404, none, []⟩, scripted [])
  | scripted (r :: rest) => (.ok (deliver r), scripted rest)

end Peer

structure Remote where
  downloadBase : String
  uploadUrl : String
  authenticator : Secret
  peer : Peer

namespace Remote

def trimSlashes (s : String) : String :=
  String.ofList (s.toList.reverse.dropWhile (· == '/')).reverse

def connect (config : RemoteConfig) (peer : Peer) : Remote :=
  ⟨trimSlashes config.downloadBase, config.uploadUrl, config.authenticator, peer⟩

def downloadUrl (r : Remote) (name : String) : String :=
  r.downloadBase ++ "/" ++ Http.formEncode name

/-- The form of an upload; the digest is named if the name has one. -/
def uploadParts (r : Remote) (name : String) (bs : Bytes) : List Http.Part :=
  [⟨Http.authenticatorField, none, Utf8.encode r.authenticator.value⟩] ++
    (match Fingerprint.decode name with
      | .ok fp => [⟨Http.digestField, none, Utf8.encode fp.algorithm.name⟩]
      | .error _ => []) ++
    [⟨Http.nameField, none, Utf8.encode name⟩,
     ⟨Http.contentsField, some Http.octetStream, bs⟩]

def firstLine (text : String) : String := String.ofList (text.toList.takeWhile (· != '\n'))

/-- Whether the answer to an upload says that the name was stored. -/
def acceptUpload (name : String) (answer : Http.Response) : Except PeerError Unit :=
  let body := Utf8.decodeLenient answer.body
  if answer.status < 200 ∨ 300 ≤ answer.status then
    .error (.uploadStatus answer.status (Text.trim body))
  else
    let echoed := Text.trim (firstLine body)
    if echoed = name then .ok () else .error (.wrongEcho echoed name)

/-- The content type of an answer without its parameters; empty if there is none. -/
def essence (answer : Http.Response) : String :=
  match answer.contentType with
  | none => ""
  | some value =>
    if value.toList.all fun c => (' ' ≤ c && c ≤ '~') || c == '\t' then
      Text.trim (String.ofList (value.toList.takeWhile (· != ';')))
    else ""

def acceptDownload (endpoint name : String) (answer : Http.Response) :
    Except Error StoredBytes :=
  if answer.status = 410 then .error (.noSuchBlock name)
  else if answer.status ≠ 200 then
    .error (.network endpoint (.downloadStatus answer.status))
  else
    let found := essence answer
    if Ascii.equalsIgnoringCase found Http.octetStream then .ok ⟨answer.body, false⟩
    else
      let shown := if found = "" then "none" else found
      .error (.network endpoint (.contentType shown))

def put (r : Remote) (name : String) (bs : Bytes) : Outcome Remote Unit :=
  let (answer, peer) := r.peer.ask (.upload r.uploadUrl (r.uploadParts name bs))
  ((do acceptUpload name (← answer)).mapError (.network ("POST " ++ r.uploadUrl)),
    { r with peer := peer })

def get (r : Remote) (name : String) : Outcome Remote StoredBytes :=
  let url := r.downloadUrl name
  let endpoint := "GET " ++ url
  let (answer, peer) := r.peer.ask (.download url)
  ((do acceptDownload endpoint name (← answer.mapError (.network endpoint))),
    { r with peer := peer })

def describe (r : Remote) : String :=
  Text.record "RemoteStore"
    [("download_base", Text.quote r.downloadBase), ("upload_url", Text.quote r.uploadUrl),
     ("authenticator", r.authenticator.describe)]

instance : Medium Remote where
  put := put
  get := get
  list _ := .ok none
  kind _ := "remote"

end Remote

end ContentAddressed
