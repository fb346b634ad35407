import ContentAddressed.Error
import ContentAddressed.Http.Message
import ContentAddressed.Text.Json
import ContentAddressed.Text.Utf8

/-!
# Refusals

Why a request to the block server is not granted, and how that is answered. What went wrong inside
the server is not told to the client.
-/

namespace ContentAddressed

inductive RequestError where
  /-- The body is no form; the HTTP library may say more. -/
  | malformedForm (detail : Option String)
  | missingField (name : String)
  | otherDigest (named : String) (used : DigestAlgorithm)
  | wrongContents (expected : String)
  | argument (cause : ArgumentError)
  | format (cause : FormatError)
  | algorithm (cause : AlgorithmError)
  deriving DecidableEq, Repr

def RequestError.message : RequestError → String
  | malformedForm none => "malformed multipart body"
  | malformedForm (some detail) => s!"malformed multipart body: {detail}"
  | missingField name => s!"missing form field {name}"
  | otherDigest named used =>
    s!"{Http.digestField} names {named} but {Http.nameField} uses {used.name}"
  | wrongContents expected => s!"contents do not hash to {expected}"
  | argument cause => cause.message
  | format cause => cause.message
  | algorithm cause => s!"unsupported algorithm: {cause.message}"

inductive ServiceError where
  /-- The block is not here. -/
  | gone (name : String)
  | badRequest (cause : RequestError)
  /-- The authenticator is missing or wrong. -/
  | forbidden
  | internal (cause : Error)
  deriving DecidableEq, Repr

namespace ServiceError

def ofError : Error → ServiceError
  | .noSuchBlock name => gone name
  | .invalidArgument cause => badRequest (.argument cause)
  | .format cause => badRequest (.format cause)
  | .unsupportedAlgorithm cause => badRequest (.algorithm cause)
  | e => internal e

def message : ServiceError → String
  | gone name => s!"no such block: {name}"
  | badRequest cause => s!"bad request: {cause.message}"
  | forbidden => "forbidden: bad authenticator"
  | internal cause => s!"internal error: {cause.message}"

def status : ServiceError → Nat
  | gone _ => 410
  | badRequest _ => 400
  | forbidden => 403
  | internal _ => 500

def shown (e : ServiceError) : String :=
  match e with
  | internal _ => "internal server error"
  | _ => e.message

def body (e : ServiceError) : Json :=
  .object [("error", .object [("code", .number e.status), ("message", .text e.shown)])]

def response (e : ServiceError) : Http.Response :=
  ⟨e.status, some Http.json, Utf8.encode e.body.compact⟩

end ServiceError

end ContentAddressed
