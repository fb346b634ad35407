import ContentAddressed.Text.Utf8

/-!
# UTF-16 and marked text

Lenient reading of two-byte units, and of text that says by a byte order mark how it is written.
-/

namespace ContentAddressed

namespace Utf16

/-- A lenient reading in progress, after a unit that starts a pair if there is one. -/
structure Progress where
  chars : Array Char := #[]
  first : Option Nat := none

def isFirst (u : Nat) : Bool := 0xD800 ≤ u && u < 0xDC00

def isSecond (u : Nat) : Bool := 0xDC00 ≤ u && u < 0xE000

def ofPair (first second : Nat) : Char :=
  Char.ofNat (0x10000 + (first - 0xD800) * 1024 + (second - 0xDC00))

def step (p : Progress) (u : Nat) : Progress :=
  match p.first with
  | some f =>
    if isSecond u then ⟨p.chars.push (ofPair f u), none⟩
    else
      let chars := p.chars.push Utf8.replacement
      if isFirst u then ⟨chars, some u⟩ else ⟨chars.push (Char.ofNat u), none⟩
  | none =>
    if isFirst u then ⟨p.chars, some u⟩
    else if isSecond u then ⟨p.chars.push Utf8.replacement, none⟩
    else ⟨p.chars.push (Char.ofNat u), none⟩

/-- The units of a byte string, and whether a byte is left over. -/
def units (bigEndian : Bool) : Bytes → List Nat × Bool
  | a :: b :: rest =>
    let u := if bigEndian then a.toNat * 256 + b.toNat else b.toNat * 256 + a.toNat
    let (us, odd) := units bigEndian rest
    (u :: us, odd)
  | [_] => ([], true)
  | [] => ([], false)

def decodeLenient (bigEndian : Bool) (bs : Bytes) : String :=
  let (us, odd) := units bigEndian bs
  let p := us.foldl step {}
  String.ofList (p.chars.toList ++ if odd || p.first.isSome then [Utf8.replacement] else [])

end Utf16

namespace Text

/-- The lenient reading of a text that may begin with a byte order mark; `plain` reads one without
such a mark. -/
def decodeAs (plain : Bytes → String) (bs : Bytes) : String :=
  match bs with
  | 0xEF :: 0xBB :: 0xBF :: rest => Utf8.decodeLenient rest
  | 0xFF :: 0xFE :: rest => Utf16.decodeLenient false rest
  | 0xFE :: 0xFF :: rest => Utf16.decodeLenient true rest
  | _ => plain bs

/-- The lenient reading of a text as UTF-8, unless a byte order mark says otherwise. -/
def decodeBody (bs : Bytes) : String := decodeAs Utf8.decodeLenient bs

end Text

end ContentAddressed
