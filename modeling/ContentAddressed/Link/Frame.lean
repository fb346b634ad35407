import ContentAddressed.Cursor
import ContentAddressed.Link.Basic

/-!
# Link frames

    LINK\r\n | body length | algorithm length | target length | key bits | iv bits
    algorithm | target | key | iv

Numbers have two bytes, least significant first. The body length is the sum of the four fields.
-/

namespace ContentAddressed.Link

def magic : Bytes := [0x4C, 0x49, 0x4E, 0x4B, 0x0D, 0x0A]

def frame (l : Link) : Bytes :=
  let (algorithm, key, keyBits, iv, ivBits) :=
    match l.decryption with
    | some d => (d.algorithm, d.key, d.keyBits, d.iv, d.ivBits)
    | none => ("", [], 0, [], 0)
  magic ++ Bytes.littleEndian 2 l.bodyLength ++ Bytes.littleEndian 2 algorithm.toList.length ++
    Bytes.littleEndian 2 l.target.toList.length ++ Bytes.littleEndian 2 keyBits ++
    Bytes.littleEndian 2 ivBits ++
    (Ascii.encode algorithm ++ (Ascii.encode l.target ++ (key ++ iv)))

/-- The parameters that a frame spells; three empty fields stand for none. -/
def spelledDecryption (algorithm : String) (key : Bytes) (keyBits : Nat) (iv : Bytes)
    (ivBits : Nat) : Option Decryption :=
  if algorithm = "" ∧ key = [] ∧ iv = [] then none
  else some ⟨algorithm, key, keyBits, iv, ivBits⟩

def read : Reader Link := do
  Reader.magic magic "link"
  let bodyLength ← Reader.number 2 "link body length"
  let algorithmLength ← Reader.number 2 "link algorithm length"
  let targetLength ← Reader.number 2 "link target length"
  let keyBits ← Reader.number 2 "link key bits"
  let ivBits ← Reader.number 2 "link iv bits"
  let keyLength := (keyBits + 7) / 8
  let ivLength := (ivBits + 7) / 8
  let sum := algorithmLength + targetLength + keyLength + ivLength
  if bodyLength ≠ sum then Reader.fail (.linkBodyLength bodyLength sum)
  let algorithm ← Reader.text algorithmLength "link algorithm"
  let target ← Reader.text targetLength "link target"
  let key ← Reader.take keyLength "link key"
  let iv ← Reader.take ivLength "link iv"
  if target = "" then Reader.fail .emptyTarget
  return ⟨target, spelledDecryption algorithm key keyBits iv ivBits⟩

def parse (buffer : Bytes) : Except Error Link := do
  let (link, after) ← read.runOn buffer
  if after.rest.isEmpty then return link
  else .error (.format (.trailingBytes after.rest.length))

end ContentAddressed.Link
