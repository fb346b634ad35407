import ContentAddressed.Digest.Sha1
import ContentAddressed.Digest.Sha2
import ContentAddressed.Text.Ascii
import ContentAddressed.Text.Blank

/-! # Digest algorithms and their names -/

namespace ContentAddressed

/-- The digests that can name a block. -/
inductive DigestAlgorithm where
  | sha1
  | sha256
  | sha384
  | sha512
  deriving DecidableEq, Repr, Inhabited

namespace DigestAlgorithm

def all : List DigestAlgorithm := [.sha1, .sha256, .sha384, .sha512]

/-- The algorithm that names blocks unless another one is asked for. -/
def standard : DigestAlgorithm := .sha256

def name : DigestAlgorithm → String
  | .sha1 => "sha-1"
  | .sha256 => "sha-256"
  | .sha384 => "sha-384"
  | .sha512 => "sha-512"

def size : DigestAlgorithm → Nat
  | .sha1 => 20
  | .sha256 => 32
  | .sha384 => 48
  | .sha512 => 64

/-- The name without its hyphen, to which every accepted spelling comes down. -/
def plainName : DigestAlgorithm → String
  | .sha1 => "sha1"
  | .sha256 => "sha256"
  | .sha384 => "sha384"
  | .sha512 => "sha512"

/-- A spelling without surrounding blanks, hyphens, underscores and capital letters. -/
def plainSpelling (spelling : String) : String :=
  String.ofList
    (((Text.trimList spelling.toList).filter fun c => c != '-' && c != '_').map Ascii.lower)

/-- The algorithm that a spelling such as `SHA-256` or `sha_256` stands for. -/
def ofName? (spelling : String) : Option DigestAlgorithm :=
  let plain := plainSpelling spelling
  all.find? fun a => a.plainName == plain

def digest : DigestAlgorithm → Bytes → Bytes
  | .sha1 => Digest.Sha1.digest
  | .sha256 => Digest.Sha2.digest256
  | .sha384 => Digest.Sha2.digest384
  | .sha512 => Digest.Sha2.digest512

@[simp] theorem length_digest (a : DigestAlgorithm) (bs : Bytes) :
    (a.digest bs).length = a.size := by
  cases a <;> simp [digest, size]

end DigestAlgorithm

end ContentAddressed
