import ContentAddressed.Cipher.Mode

/-!
# Cipher transformations

A transformation is AES in one of two modes. Its text form has the parts algorithm, mode and
padding, of which the last two may be left out.
-/

namespace ContentAddressed

inductive Transformation where
  | counter
  | chaining
  deriving DecidableEq, Repr, Inhabited

namespace Transformation

def standard : Transformation := .counter

def name : Transformation → String
  | counter => "AES/CTR/NoPadding"
  | chaining => "AES/CBC/PKCS5Padding"

/-- The mode that the second part of a text form names. -/
def ofMode? (mode : String) : Option Transformation :=
  if Ascii.equalsIgnoringCase mode "CTR" then some counter
  else if Ascii.equalsIgnoringCase mode "CBC" then some chaining
  else none

/-- Whether the third part of a text form goes with the mode. -/
def acceptsPadding (t : Transformation) (padding : String) : Bool :=
  match t with
  | counter => Ascii.equalsIgnoringCase padding "NoPadding"
  | chaining =>
    Ascii.equalsIgnoringCase padding "PKCS5Padding" ||
      Ascii.equalsIgnoringCase padding "PKCS7Padding"

def ofParts? : List String → Option Transformation
  | [algorithm] => if Ascii.equalsIgnoringCase algorithm "AES" then some standard else none
  | [algorithm, mode] => if Ascii.equalsIgnoringCase algorithm "AES" then ofMode? mode else none
  | [algorithm, mode, padding] =>
    if Ascii.equalsIgnoringCase algorithm "AES" then
      (ofMode? mode).filter fun t => t.acceptsPadding padding
    else none
  | _ => none

/-- Read a text form. Case and surrounding blanks do not matter. -/
def parse (text : String) : Except CipherError Transformation :=
  match ofParts? (Text.split '/' (Text.trim text)) with
  | some t => .ok t
  | none => .error (.unsupportedCipher text)

/-- The block that an initial vector stands for: an empty one is zero. -/
def initialBlock (iv : Bytes) : Except CipherError Aes.State :=
  if iv.length = 0 then .ok Aes.State.zero
  else if iv.length = 16 then .ok (Aes.State.ofBytes iv)
  else .error (.keyLength (.iv iv.length))

def permutation (key : Bytes) : Except CipherError BlockPermutation :=
  if key.length = 16 ∨ key.length = 24 ∨ key.length = 32 then
    let schedule := Aes.expand key
    .ok ⟨Aes.encrypt schedule, Aes.decrypt schedule⟩
  else .error (.keyLength (.key key.length))

def encrypt (t : Transformation) (key iv text : Bytes) : Except CipherError Bytes := do
  let start ← initialBlock iv
  let p ← permutation key
  match t with
  | counter => .ok (p.counter start text)
  | chaining => .ok ((p.chain start (textBlocks (padBlock text))).flatMap Aes.State.bytes)

def decrypt (t : Transformation) (key iv text : Bytes) : Except CipherError Bytes := do
  let start ← initialBlock iv
  let p ← permutation key
  match t with
  | counter => .ok (p.counter start text)
  | chaining =>
    if text.length % 16 ≠ 0 then .error (.badPadding (.partialBlock text.length))
    else
      match unpadBlock? ((p.unchain start (textBlocks text)).flatMap Aes.State.bytes) with
      | some plain => .ok plain
      | none => .error (.badPadding .malformed)

end Transformation

end ContentAddressed
