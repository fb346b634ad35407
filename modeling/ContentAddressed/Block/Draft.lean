import ContentAddressed.Block.Basic

/-!
# Building blocks

A draft collects links and content. The frame has the requested size, or else the smallest power of
two that holds them; what is left over is filled from a source of random bytes.
-/

namespace ContentAddressed.Block

structure Draft where
  links : List Link := []
  content : Bytes := []
  desiredSize : Option Nat := none
  digest : DigestAlgorithm := .standard

def isPowerOfTwo (n : Nat) : Bool := n == 1 <<< n.log2

/-- The exponent of the smallest frame that holds `n` bytes. -/
def fittingExponent (n : Nat) : Nat := if n ≤ 16 then 4 else (n - 1).log2 + 1

def framesLength : List Link → Nat
  | [] => 0
  | l :: ls => l.byteLength + framesLength ls

namespace Draft

def linksLength (d : Draft) : Nat := framesLength d.links

def minimumSize (d : Draft) : Nat := headerLength + d.linksLength + d.content.length

/-- The size asked for, or else the smallest that fits. -/
def targetSize (d : Draft) : Nat :=
  d.desiredSize.getD (1 <<< fittingExponent d.minimumSize)

/-- How much more content the frame takes without growing. -/
def remaining (d : Draft) : Nat := d.targetSize - d.minimumSize

/-- The size of the frame, if links and content can have one. -/
def frameSize (d : Draft) : Except Error Nat :=
  if maxLinks < d.links.length then .error (.invalidArgument (.tooManyLinks d.links.length))
  else
    match d.desiredSize with
    | some size =>
      if !isPowerOfTwo size || size < max d.minimumSize headerLength then
        .error (.invalidArgument (.desiredSize size d.minimumSize))
      else limited size
    | none => limited (1 <<< fittingExponent d.minimumSize)
where
  limited (size : Nat) : Except Error Nat :=
    if 1 <<< maxExponent < size then .error (.invalidArgument (.frameLimit d.minimumSize))
    else .ok size

def body (d : Draft) (size : Nat) : Bytes :=
  magic ++ (UInt8.ofNat size.log2 :: UInt8.ofNat d.links.length ::
    (Bytes.littleEndian 4 (headerLength + d.linksLength) ++
      (Bytes.littleEndian 4 d.content.length ++
        ((d.links.map Link.frame).flatten ++ d.content))))

def build (d : Draft) (filler : Bytes) : Except Error Block := do
  let size ← d.frameSize
  let frame := d.body size ++ Bytes.cycle filler (size - d.minimumSize)
  return ⟨d.links, d.content, frame, Fingerprint.of d.digest frame⟩

end Draft

end ContentAddressed.Block
