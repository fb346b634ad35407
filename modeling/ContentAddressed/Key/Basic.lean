import ContentAddressed.Config.Crypto
import ContentAddressed.Text.Quoted

/-!
# Secret keys

Key bytes with the transformation that they are for. The fingerprint of a key is the digest of its
bytes, not the name of what it opens.
-/

namespace ContentAddressed

structure SecretKey where
  cipher : Transformation
  bytes : Bytes
  fingerprint : Fingerprint

namespace SecretKey

def make (cipher : Transformation) (bytes : Bytes) (digest : DigestAlgorithm) : SecretKey :=
  ⟨cipher, bytes, Fingerprint.of digest bytes⟩

/-- A key of the configured size, cut from a source of random bytes. -/
def generate (config : CryptoConfig) (filler : Bytes) : Except Error SecretKey := do
  let cipher ← config.transformation
  return make cipher (Bytes.cycle filler config.keyBytes) config.digest

def bits (key : SecretKey) : Nat := key.bytes.length * 8

/-- Whether two keys have the same transformation and the same fingerprint. -/
def same (a b : SecretKey) : Bool := a.cipher == b.cipher && a.fingerprint == b.fingerprint

def describe (key : SecretKey) : String :=
  Text.partialRecord "SecretKey"
    [("cipher", Text.quote key.cipher.name), ("bits", toString key.bits),
     ("fingerprint", Text.quote key.fingerprint.encode)]

end SecretKey

end ContentAddressed
