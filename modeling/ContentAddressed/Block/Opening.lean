import ContentAddressed.Block.Basic

/-!
# Opening ciphertexts

A link with a key turns a ciphertext into the block it encloses.
-/

namespace ContentAddressed.Link

/-- Whether a key is the start of the digest of a plaintext. -/
def derivedFrom (key plaintext : Bytes) (a : DigestAlgorithm) : Bool :=
  key.length ≤ a.size && (a.digest plaintext).take key.length == key

/-- The algorithm that names a deciphered frame: the one whose digest starts with the key, that of
the target being tried first, or else that of the target. -/
def plaintextAlgorithm (l : Link) (key plaintext : Bytes) : DigestAlgorithm :=
  let own := l.digestAlgorithm
  ((own :: DigestAlgorithm.all.filter (· ≠ own)).find? (derivedFrom key plaintext)).getD own

/-- The block that a ciphertext encloses, opened with the key of a link. -/
def decrypt (l : Link) (ciphertext : Bytes) : Except Error Block :=
  match l.decryption with
  | none => .error (.decryption .missingKey)
  | some d =>
    if d.key.isEmpty then .error (.decryption .missingKey)
    else do
      let t ← d.transformation.mapError .decryption
      let plaintext ← (t.decrypt d.key d.iv ciphertext).mapError .decryption
      Block.parse (l.plaintextAlgorithm d.key plaintext) plaintext

end ContentAddressed.Link
