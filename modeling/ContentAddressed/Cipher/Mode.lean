import ContentAddressed.Cipher.Aes
import ContentAddressed.Error

/-!
# Modes of operation

Counter mode and cipher block chaining over any permutation of blocks.
-/

namespace ContentAddressed

structure BlockPermutation where
  forward : Aes.State → Aes.State
  backward : Aes.State → Aes.State

namespace BlockPermutation

/-- The first `count` blocks of key stream: the images of `start`, `start + 1` and so on. -/
def keyStream (p : BlockPermutation) (start count : Nat) : Bytes :=
  (List.range count).flatMap fun i =>
    (p.forward (Aes.State.ofBytes (Bytes.bigEndian 16 (start + i)))).bytes

def counter (p : BlockPermutation) (iv : Aes.State) (text : Bytes) : Bytes :=
  List.zipWith (fun b k => b ^^^ k) text
    (p.keyStream (Bytes.fromBigEndian iv.bytes) ((text.length + 15) / 16))

/-- Chaining: each block is combined with the ciphertext before it. -/
def chain (p : BlockPermutation) : Aes.State → List Aes.State → List Aes.State
  | _, [] => []
  | before, b :: bs =>
    let c := p.forward (b.xor before)
    c :: chain p c bs

def unchain (p : BlockPermutation) (iv : Aes.State) (blocks : List Aes.State) : List Aes.State :=
  List.zipWith (fun before c => (p.backward c).xor before) (iv :: blocks) blocks

end BlockPermutation

def textBlocks (text : Bytes) : List Aes.State := (Bytes.chunks 16 text).map Aes.State.ofBytes

/-- A text filled up to whole blocks with 1 to 16 bytes that hold their own number. -/
def padBlock (text : Bytes) : Bytes :=
  let n := 16 - text.length % 16
  text ++ List.replicate n (UInt8.ofNat n)

/-- The text in front of the padding, if the padding is well formed. -/
def unpadBlock? (padded : Bytes) : Option Bytes :=
  match padded.getLast? with
  | none => none
  | some b =>
    let n := b.toNat
    let kept := padded.length - n
    if 0 < n ∧ n ≤ 16 ∧ n ≤ padded.length ∧ (padded.drop kept).all (· == b) then
      some (padded.take kept)
    else none

end ContentAddressed
