import ContentAddressed.Fingerprint
import ContentAddressed.Key.Basic

/-!
# Links

A link names a block, by its fingerprint or by any other printable text, and may carry the key that
opens it. `Draft.build` is the only way to a link with given parts.
-/

namespace ContentAddressed

/-- The parameters with which a link opens its target. Lengths in bits are kept as written. -/
structure Decryption where
  /-- The transformation; an empty text stands for the standard one. -/
  algorithm : String
  key : Bytes
  keyBits : Nat
  iv : Bytes
  ivBits : Nat
  deriving DecidableEq

structure Link where
  target : String
  decryption : Option Decryption
  deriving DecidableEq

namespace Decryption

def transformation (d : Decryption) : Except CipherError Transformation :=
  if d.algorithm = "" then .ok .standard else Transformation.parse d.algorithm

def describe (d : Decryption) : String :=
  Text.partialRecord "Decryption"
    [("algorithm", Text.quote d.algorithm), ("key_bits", toString d.keyBits),
     ("iv_bits", toString d.ivBits)]

def Valid (d : Decryption) : Prop :=
  Ascii.printable d.algorithm ∧ d.keyBits ≤ 65535 ∧ d.key.length = (d.keyBits + 7) / 8 ∧
    d.ivBits ≤ 65535 ∧ d.iv.length = (d.ivBits + 7) / 8

end Decryption

namespace Link

def ofFingerprint (fp : Fingerprint) : Link := ⟨fp.encode, none⟩

def fingerprint? (l : Link) : Option Fingerprint := (Fingerprint.decode l.target).toOption

/-- The algorithm of the target, or the standard one where the target is no fingerprint. -/
def digestAlgorithm (l : Link) : DigestAlgorithm :=
  match l.fingerprint? with
  | some fp => fp.algorithm
  | none => .standard

def hasKey (l : Link) : Bool :=
  match l.decryption with
  | some d => !d.key.isEmpty
  | none => false

/-- Bytes in the part of a frame that follows its header. -/
def bodyLength (l : Link) : Nat :=
  match l.decryption with
  | some d =>
    d.algorithm.toList.length + l.target.toList.length + d.key.length + d.iv.length
  | none => l.target.toList.length

def byteLength (l : Link) : Nat := 16 + l.bodyLength

def describe (l : Link) : String :=
  Text.record "Link"
    [("target", Text.quote l.target),
     ("decryption", Text.optional (l.decryption.map Decryption.describe))]

/-- Whether a link fits a frame: each text is printable, each length is what the frame can say. -/
def Valid (l : Link) : Prop :=
  l.target ≠ "" ∧ Ascii.printable l.target ∧ (∀ d ∈ l.decryption, d.Valid) ∧
    l.bodyLength ≤ 65535

structure KeyMaterial where
  algorithm : String
  key : Bytes
  iv : Bytes

structure Draft where
  target : Option String := none
  material : Option KeyMaterial := none

/-- The length in bits of a field, if its sixteen bits can hold it. -/
def fieldBits (what : String) (size : Nat) : Except Error Nat :=
  if size * 8 ≤ 65535 then .ok (size * 8)
  else .error (.invalidArgument (.linkField what size))

def checkText (what text : String) : Except Error Unit :=
  if Ascii.printable text then .ok () else .error (.invalidArgument (.linkText what))

def KeyMaterial.build (m : KeyMaterial) : Except Error Decryption := do
  checkText "algorithm" m.algorithm
  let keyBits ← fieldBits "key" m.key.length
  let ivBits ← fieldBits "iv" m.iv.length
  return ⟨m.algorithm, m.key, keyBits, m.iv, ivBits⟩

def checkBody (l : Link) : Except Error Link :=
  if l.bodyLength ≤ 65535 then .ok l
  else .error (.invalidArgument (.linkBody l.bodyLength))

def Draft.build (d : Draft) : Except Error Link :=
  match d.target with
  | none | some "" => .error (.invalidArgument .noTarget)
  | some target => do
    checkText "target" target
    match d.material with
    | none => checkBody ⟨target, none⟩
    | some m =>
      let decryption ← m.build
      checkBody ⟨target, some decryption⟩

def withKey (l : Link) (key : SecretKey) : Except Error Link :=
  Draft.build ⟨some l.target, some ⟨key.cipher.name, key.bytes, []⟩⟩

end Link

end ContentAddressed
