import ContentAddressed.Error
import ContentAddressed.Text.Base64

/-!
# Fingerprints

A fingerprint is a digest with the algorithm that produced it. Its text form is the name under which
a block is stored and linked.
-/

namespace ContentAddressed

structure Fingerprint where
  algorithm : DigestAlgorithm
  digest : Bytes
  length_digest : digest.length = algorithm.size
  deriving DecidableEq

namespace Fingerprint

def of (algorithm : DigestAlgorithm) (bs : Bytes) : Fingerprint :=
  ⟨algorithm, algorithm.digest bs, algorithm.length_digest bs⟩

def ofDigest (algorithm : DigestAlgorithm) (digest : Bytes) : Except Error Fingerprint :=
  if h : digest.length = algorithm.size then .ok ⟨algorithm, digest, h⟩
  else .error (.format (.digestSize algorithm digest.length))

def algorithmNamed (spelling : String) : Except Error DigestAlgorithm :=
  match DigestAlgorithm.ofName? spelling with
  | some a => .ok a
  | none => .error (.unsupportedAlgorithm (.unknownDigest spelling))

/-- The text form: the name of the algorithm, a colon and the digest. -/
def encode (fp : Fingerprint) : String :=
  fp.algorithm.name ++ ":" ++ Base64.fileName.encode fp.digest

/-- Read the text form. A slash stands for the last symbol of the alphabet as well. -/
def decode (name : String) : Except Error Fingerprint :=
  match Text.cutList? ':' name.toList with
  | none => .error (.format (.noColon name))
  | some (spelling, encoded) =>
    if ':' ∈ encoded then .error (.format (.manyColons name))
    else do
      let algorithm ← algorithmNamed (String.ofList spelling)
      match Base64.fileName.decodeList? (encoded.map fun c => if c = '/' then '+' else c) with
      | none => .error (.format (.badBase64 name))
      | some digest => ofDigest algorithm digest

def isOf (fp : Fingerprint) (bs : Bytes) : Bool := fp.algorithm.digest bs == fp.digest

def hex (fp : Fingerprint) : String := Hex.encode fp.digest

end Fingerprint

end ContentAddressed
