import ContentAddressed.Fingerprint
import ContentAddressed.Http.Framework
import ContentAddressed.Service.Error

/-!
# Uploads

The form that brings a block, and the checks it has to pass. The contents have to have the
fingerprint that is expected of them.
-/

namespace ContentAddressed

structure UploadForm where
  authenticator : Option String := none
  digest : Option String := none
  expected : Option String := none
  contents : Option Bytes := none
  deriving DecidableEq, Repr

namespace UploadForm

/-- The form with one more field; unknown fields are ignored, and a repeated one counts anew. -/
def add [Http.Framework] (f : UploadForm) (p : Http.Part) : UploadForm :=
  if p.name = Http.authenticatorField then { f with authenticator := some p.text }
  else if p.name = Http.digestField then { f with digest := some p.text }
  else if p.name = Http.nameField then { f with expected := some p.text }
  else if p.name = Http.contentsField then { f with contents := some p.value }
  else f

def ofParts [Http.Framework] (parts : List Http.Part) : UploadForm := parts.foldl add {}

/-- Refuse a digest that is named, not blank, and not the one of the fingerprint. -/
def checkDigest (f : UploadForm) (fp : Fingerprint) : Except ServiceError Unit :=
  match f.digest with
  | none => .ok ()
  | some named => do
    if (Text.trim named).isEmpty then return
    let a ← (Fingerprint.algorithmNamed (Text.trim named)).mapError ServiceError.ofError
    if a = fp.algorithm then return
    throw (.badRequest (.otherDigest named fp.algorithm))

/-- The fingerprint and contents of a form that passes. The expected name is looked at first, then
the digest, then the contents. -/
def block (f : UploadForm) : Except ServiceError (Fingerprint × Bytes) :=
  match f.expected with
  | none => .error (.badRequest (.missingField Http.nameField))
  | some expected => do
    let fp ← (Fingerprint.decode (Text.trim expected)).mapError ServiceError.ofError
    f.checkDigest fp
    match f.contents with
    | none => throw (.badRequest (.missingField Http.contentsField))
    | some contents =>
      if fp.isOf contents then return (fp, contents)
      throw (.badRequest (.wrongContents expected))

end UploadForm

end ContentAddressed
