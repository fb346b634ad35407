import ContentAddressed.Link.Frame

/-!
# Blocks

A block is a frame whose size is a power of two, read as links and content. Its name is the
fingerprint of the whole frame.

    F0 07 DA 7A 0D 0A | size exponent | link count | data offset | data length
    links | content | padding

The last two numbers of the header have four bytes, least significant first.
-/

namespace ContentAddressed

structure Block where
  links : List Link
  content : Bytes
  /-- The complete frame, padding included. -/
  frame : Bytes
  fingerprint : Fingerprint

namespace Block

def magic : Bytes := [0xF0, 0x07, 0xDA, 0x7A, 0x0D, 0x0A]

def headerLength : Nat := 16

def maxExponent : Nat := 31

def maxLinks : Nat := 255

def name (b : Block) : String := b.fingerprint.encode

def frameLength (b : Block) : Nat := b.frame.length

def link (b : Block) : Link := Link.ofFingerprint b.fingerprint

/-- Whether two blocks have the same links and content; padding and names do not matter. -/
def same (a b : Block) : Bool := a.links == b.links && a.content == b.content

def describe (b : Block) : String :=
  Text.record "Block"
    [("name", Text.quote b.name), ("links", toString b.links.length),
     ("content_len", toString b.content.length), ("frame_len", toString b.frameLength)]

def summary (b : Block) : String :=
  s!"Block \x7b {b.frameLength} B, {b.links.length} links, {b.content.length} B content \x7d"

def readLinks : (count : Nat) → Reader (List Link)
  | 0 => return []
  | n + 1 => do
    let l ← Link.read
    let ls ← readLinks n
    return l :: ls

/-- What a frame of `size` bytes says: its links, where the content starts, and how long it is. -/
def readFrame (size : Nat) : Reader (List Link × Nat × Nat) := do
  Reader.magic magic "block"
  let exponent ← Reader.number 1 "block size exponent"
  if exponent < 4 ∨ maxExponent < exponent then Reader.fail (.sizeExponent exponent)
  if size ≠ 1 <<< exponent then Reader.fail (.frameLength exponent size)
  let count ← Reader.number 1 "block link count"
  let offset ← Reader.number 4 "block data offset"
  let length ← Reader.number 4 "block data length"
  if size < offset + length then Reader.fail (.contentOverrun offset length size)
  let links ← readLinks count
  let position ← Reader.position
  if position ≠ offset then Reader.fail (.linksEnd position offset)
  return (links, offset, length)

def parse (algorithm : DigestAlgorithm) (frame : Bytes) : Except Error Block := do
  let ((links, offset, length), _) ← (readFrame frame.length).runOn frame
  return ⟨links, (frame.drop offset).take length, frame, Fingerprint.of algorithm frame⟩

end Block

end ContentAddressed
