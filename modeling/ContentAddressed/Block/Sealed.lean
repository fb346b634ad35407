import ContentAddressed.Block.Opening
import ContentAddressed.Config.Crypto

/-!
# Encrypted blocks

A ciphertext, the fingerprint under which it is stored, and the link that opens it. The key is the
start of the digest of the plaintext, so equal blocks have equal ciphertexts.
-/

namespace ContentAddressed

structure SealedBlock where
  ciphertext : Bytes
  name : Fingerprint
  link : Link
  /-- The name of the enclosed block, where it is known. -/
  plaintextName : Option Fingerprint

namespace SealedBlock

/-- The parts of an encrypted block that is to be built. -/
structure Draft where
  ciphertext : Option Bytes := none
  name : Option Fingerprint := none
  link : Option Link := none
  plaintextName : Option Fingerprint := none

def Draft.require {α : Type} (what : String) : Option α → Except Error α
  | some part => .ok part
  | none => .error (.invalidArgument (.missingPart what))

/-- The encrypted block of a draft whose name belongs to the ciphertext and is what the link
targets. -/
def Draft.build (d : Draft) : Except Error SealedBlock := do
  let ciphertext ← Draft.require "ciphertext" d.ciphertext
  let name ← Draft.require "name" d.name
  let link ← Draft.require "link" d.link
  if !name.isOf ciphertext then .error (.invalidArgument (.wrongName name.encode))
  else if link.target ≠ name.encode then
    .error (.invalidArgument (.wrongTarget link.target name.encode))
  else .ok ⟨ciphertext, name, link, d.plaintextName⟩

def decrypt (b : SealedBlock) : Except Error Block := b.link.decrypt b.ciphertext

def describe (b : SealedBlock) : String :=
  Text.record "EncryptedBlock"
    [("name", Text.quote b.name.encode), ("len", toString b.ciphertext.length),
     ("link", b.link.describe)]

end SealedBlock

namespace Block

/-- Encrypt a block with the key that its own digest starts with. -/
def encrypt (b : Block) (config : CryptoConfig) : Except Error SealedBlock := do
  let t ← config.transformation
  if b.fingerprint.digest.length < config.keyBytes then
    throw (.invalidArgument (.shortDigest b.fingerprint.algorithm config.keyBits))
  let key := b.fingerprint.digest.take config.keyBytes
  let ciphertext ← (t.encrypt key [] b.frame).mapError .decryption
  let name := Fingerprint.of config.digest ciphertext
  let link ← Link.Draft.build ⟨some name.encode, some ⟨t.name, key, []⟩⟩
  SealedBlock.Draft.build ⟨some ciphertext, some name, some link, some b.fingerprint⟩

end Block

end ContentAddressed
