import ContentAddressed.Bytes

/-!
# Iterated compression

A message is closed by one marked bit, zeros and its own length in bits, so that it fills whole
blocks; the blocks are then absorbed one after another.
-/

namespace ContentAddressed.Digest

/-- The message, the byte `80`, the fewest zeros that complete a block, and the length in bits. -/
def pad (blockSize lengthSize : Nat) (message : Bytes) : Bytes :=
  let n := message.length
  let zeros := (blockSize - (n + 1 + lengthSize) % blockSize) % blockSize
  message ++ (0x80 :: (List.replicate zeros 0 ++ Bytes.bigEndian lengthSize (8 * n)))

/-- Fold a step over `count` blocks of `blockSize` bytes. -/
@[specialize] def absorb {σ : Type} (blockSize : Nat) (step : σ → Bytes → σ) :
    (count : Nat) → Bytes → σ → σ
  | 0, _, s => s
  | n + 1, bs, s => absorb blockSize step n (bs.drop blockSize) (step s (bs.take blockSize))

@[specialize] def iterate {σ : Type} (blockSize lengthSize : Nat) (step : σ → Bytes → σ)
    (initial : σ) (message : Bytes) : σ :=
  let padded := pad blockSize lengthSize message
  absorb blockSize step (padded.length / blockSize) padded initial

end ContentAddressed.Digest
