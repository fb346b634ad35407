import ContentAddressed.Fingerprint
import ContentAddressed.Cipher.Transformation

/-! # Settings for naming and encryption -/

namespace ContentAddressed

/-- The digest that names new blocks, and the cipher and key size that encrypt them. -/
structure CryptoConfig where
  digest : DigestAlgorithm := .standard
  cipher : String := Transformation.standard.name
  keyBits : Nat := 128
  deriving DecidableEq, Repr, Inhabited

namespace CryptoConfig

def keyBytes (c : CryptoConfig) : Nat := (c.keyBits + 7) / 8

def validate (c : CryptoConfig) : Except Error Unit :=
  if c.keyBits = 128 ∨ c.keyBits = 192 ∨ c.keyBits = 256 then .ok ()
  else .error (.config (.keyBits c.keyBits))

/-- The transformation that the settings name, once their key size is accepted. -/
def transformation (c : CryptoConfig) : Except Error Transformation := do
  c.validate
  (Transformation.parse c.cipher).mapError .decryption

end CryptoConfig

end ContentAddressed
