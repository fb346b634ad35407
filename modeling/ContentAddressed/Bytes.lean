/-!
# Byte strings

Fixed-width integers, equal pieces and repeated patterns of bytes.
-/

namespace ContentAddressed

abbrev Bytes := List UInt8

namespace Bytes

/-- The `width` low-order bytes of a number, least significant first. -/
def littleEndian : (width : Nat) → Nat → Bytes
  | 0, _ => []
  | w + 1, n => UInt8.ofNat n :: littleEndian w (n / 256)

/-- The number whose bytes, least significant first, are given. -/
def fromLittleEndian : Bytes → Nat
  | [] => 0
  | b :: bs => b.toNat + 256 * fromLittleEndian bs

/-- The `width` low-order bytes of a number, most significant first. -/
def bigEndian (width n : Nat) : Bytes := (littleEndian width n).reverse

/-- The number whose bytes, most significant first, are given. -/
def fromBigEndian (bs : Bytes) : Nat := fromLittleEndian bs.reverse

@[simp] theorem length_littleEndian (w n : Nat) : (littleEndian w n).length = w := by
  induction w generalizing n with
  | zero => rfl
  | succ w ih => simp [littleEndian, ih]

@[simp] theorem length_bigEndian (w n : Nat) : (bigEndian w n).length = w := by
  simp [bigEndian]

/-- Split off `count` pieces of `size` bytes onto `done`, which holds earlier pieces last first. -/
def splitPieces (size : Nat) : (count : Nat) → Bytes → List Bytes → List Bytes
  | 0, _, done => done.reverse
  | n + 1, bs, done => splitPieces size n (bs.drop size) (bs.take size :: done)

/-- Consecutive pieces of `size` bytes; the last one may be shorter, and none is empty. -/
def chunks (size : Nat) (bs : Bytes) : List Bytes :=
  splitPieces size ((bs.length + (size - 1)) / size) bs []

/-- The first `n` bytes of a pattern repeated for ever; an empty pattern stands for zeros. -/
def cycle (pattern : Bytes) (n : Nat) : Bytes :=
  if pattern.isEmpty then List.replicate n 0
  else (List.replicate (n / pattern.length + 1) pattern).flatten.take n

end Bytes

end ContentAddressed
