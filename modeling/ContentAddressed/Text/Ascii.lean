import ContentAddressed.Bytes

/-!
# Printable ASCII

The characters from space to tilde, their bytes, and comparison that ignores case.
-/

namespace ContentAddressed.Ascii

/-- Whether a byte is neither a control character nor outside ASCII. -/
def isPrintable (b : UInt8) : Bool := 32 ≤ b && b < 127

def isPrintableChar (c : Char) : Bool := ' ' ≤ c && c ≤ '~'

/-- Whether a text has only printable ASCII characters. -/
def printable (s : String) : Bool := s.toList.all isPrintableChar

/-- One byte a character: the bytes of a printable text. -/
def encode (s : String) : Bytes := s.toList.map fun c => c.toUInt8

def decode (bs : Bytes) : String := String.ofList (bs.map fun b => Char.ofNat b.toNat)

def lower (c : Char) : Char :=
  if 'A' ≤ c ∧ c ≤ 'Z' then Char.ofNat (c.toNat + 32) else c

def lowercase (s : String) : String := String.ofList (s.toList.map lower)

def equalsIgnoringCase (s t : String) : Bool :=
  s.toList.map lower == t.toList.map lower

end ContentAddressed.Ascii
