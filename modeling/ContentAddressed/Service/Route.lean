import ContentAddressed.Http.Form
import ContentAddressed.Service.Basic

/-!
# Routes

What the path and the method of a request ask for, and the answer to it.
-/

namespace ContentAddressed

inductive Route where
  | health
  /-- The block whose name is written in a segment of the path. -/
  | block (segment : String)
  | upload
  | nowhere
  deriving DecidableEq, Repr

namespace Route

def path (target : String) : List Char := target.toList.takeWhile fun c => c != '?' && c != '#'

def ofTarget (target : String) : Route :=
  match (Text.splitList '/' (path target)).map String.ofList with
  | ["", "health"] => health
  | ["", "upload"] => upload
  | ["", "blocks", segment] => if segment.isEmpty then nowhere else block segment
  | _ => nowhere

end Route

namespace Service

variable {μ : Type} [Medium μ] [Http.Framework]

def bareResponse (status : Nat) : Http.Response := ⟨status, none, []⟩

def textResponse (status : Nat) (line : String) : Http.Response :=
  ⟨status, some Http.plainText, Utf8.encode line⟩

def answerForm (s : Service μ) (parts : List Http.Part) : Http.Response × Service μ :=
  match s.upload (.ofParts parts) with
  | (.ok name, s) => (textResponse 200 (name ++ "\n"), s)
  | (.error e, s) => (e.response, s)

/-- The answer to an upload; the type of the body has to name a boundary, and an overlong body
cannot be read. -/
def answerUpload (s : Service μ) (r : Http.Incoming) : Http.Response × Service μ :=
  match (r.contentType.bind Http.MediaType.parse?).bind Http.MediaType.formBoundary? with
  | none => (textResponse 400 Http.Framework.invalidBoundary, s)
  | some boundary =>
    let parts := if r.body.length ≤ s.maxUpload then Http.Form.read? boundary r.body else none
    match parts with
    | none =>
      ((ServiceError.badRequest (.malformedForm (Http.Framework.formFault r))).response, s)
    | some parts => s.answerForm parts

/-- The answer to a download; the name has to be UTF-8. -/
def answerDownload (s : Service μ) (segment : String) : Http.Response × Service μ :=
  match Http.percentDecode? segment with
  | none => (textResponse 400 Http.Framework.invalidPath, s)
  | some name =>
    match s.download name with
    | (.ok bs, s) => (⟨200, some Http.octetStream, bs⟩, s)
    | (.error e, s) => (e.response, s)

/-- The answer to a request. One with the method `HEAD` is answered like `GET`, without the body. -/
def answer (s : Service μ) (r : Http.Incoming) : Http.Response × Service μ :=
  let reading := r.method == "GET" || r.method == "HEAD"
  let (response, s) := match Route.ofTarget r.target with
    | .nowhere => (bareResponse 404, s)
    | .health => (bareResponse (if reading then 200 else 405), s)
    | .block segment => if reading then s.answerDownload segment else (bareResponse 405, s)
    | .upload => if r.method == "POST" then s.answerUpload r else (bareResponse 405, s)
  (if r.method == "HEAD" then { response with body := [] } else response, s)

end Service

end ContentAddressed
