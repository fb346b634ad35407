import ContentAddressed.Text.Hex
import ContentAddressed.Text.Utf8

/-!
# Percent encoding

The written form of names in download addresses, and the reading of path segments.
-/

namespace ContentAddressed.Http

def isPlainInForm (b : UInt8) : Bool :=
  let c := Char.ofNat b.toNat
  ('a' ≤ c && c ≤ 'z') || ('A' ≤ c && c ≤ 'Z') || ('0' ≤ c && c ≤ '9') ||
    c == '*' || c == '-' || c == '.' || c == '_'

def upperDigit (n : Nat) : Char :=
  if n < 10 then Char.ofNat (48 + n) else Char.ofNat (55 + n)

def percentByte (b : UInt8) : List Char :=
  ['%', upperDigit (b.toNat / 16), upperDigit (b.toNat % 16)]

/-- A byte as a form writes it: a plus sign stands for a space. -/
def formByte (b : UInt8) : List Char :=
  if isPlainInForm b then [Char.ofNat b.toNat]
  else if b = 0x20 then ['+']
  else percentByte b

def formEncode (s : String) : String := String.ofList ((Utf8.encode s).flatMap formByte)

/-- The bytes of a path segment; a percent sign without two digits stands for itself. -/
def percentDecodeBytes : List Char → Bytes
  | [] => []
  | '%' :: a :: b :: rest =>
    match Hex.value? a, Hex.value? b with
    | some x, some y => UInt8.ofNat (x * 16 + y) :: percentDecodeBytes rest
    | _, _ => 0x25 :: percentDecodeBytes (a :: b :: rest)
  | c :: rest => (Utf8.encode c.toString) ++ percentDecodeBytes rest

/-- The text of a path segment, if its bytes are UTF-8. -/
def percentDecode? (segment : String) : Option String :=
  Utf8.decode? (percentDecodeBytes segment.toList)

end ContentAddressed.Http
