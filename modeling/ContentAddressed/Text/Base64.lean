import ContentAddressed.Bytes

/-!
# Base64

Three bytes are four symbols; a last group of one or two bytes is filled up with `=`. Reading
accepts the written form only: the filling is required and the unused bits are zero.
-/

namespace ContentAddressed

/-- An alphabet is letters, digits and two symbols of its own. -/
structure Base64 where
  symbol62 : Char
  symbol63 : Char

namespace Base64

def common : Base64 := ⟨'+', '/'⟩

/-- The alphabet of block names, which never holds a slash. -/
def fileName : Base64 := ⟨'-', '+'⟩

def symbol (a : Base64) (n : Nat) : Char :=
  if n < 26 then Char.ofNat (65 + n)
  else if n < 52 then Char.ofNat (71 + n)
  else if n < 62 then Char.ofNat (n - 4)
  else if n = 62 then a.symbol62
  else a.symbol63

def value? (a : Base64) (c : Char) : Option Nat :=
  if 'A' ≤ c ∧ c ≤ 'Z' then some (c.toNat - 65)
  else if 'a' ≤ c ∧ c ≤ 'z' then some (c.toNat - 71)
  else if '0' ≤ c ∧ c ≤ '9' then some (c.toNat + 4)
  else if c = a.symbol62 then some 62
  else if c = a.symbol63 then some 63
  else none

def encodeList (a : Base64) : Bytes → List Char
  | x :: y :: z :: rest =>
    let n := x.toNat * 65536 + y.toNat * 256 + z.toNat
    a.symbol (n / 262144) :: a.symbol (n / 4096 % 64) :: a.symbol (n / 64 % 64) ::
      a.symbol (n % 64) :: encodeList a rest
  | [x, y] =>
    let n := x.toNat * 1024 + y.toNat * 4
    [a.symbol (n / 4096), a.symbol (n / 64 % 64), a.symbol (n % 64), '=']
  | [x] =>
    let n := x.toNat * 16
    [a.symbol (n / 64), a.symbol (n % 64), '=', '=']
  | [] => []

def encode (a : Base64) (bs : Bytes) : String := String.ofList (encodeList a bs)

/-- The bytes of a last group, which may be filled up; its unused bits have to be zero. -/
def decodeLast? (a : Base64) (p q r s : Char) : Option Bytes := do
  let u ← a.value? p
  let v ← a.value? q
  if r = '=' ∧ s = '=' then
    if v % 16 = 0 then some [UInt8.ofNat (u * 4 + v / 16)] else none
  else
    let w ← a.value? r
    if s = '=' then
      if w % 4 = 0 then
        some [UInt8.ofNat (u * 4 + v / 16), UInt8.ofNat (v * 16 + w / 4)]
      else none
    else
      let x ← a.value? s
      some [UInt8.ofNat (u * 4 + v / 16), UInt8.ofNat (v * 16 + w / 4), UInt8.ofNat (w * 64 + x)]

/-- The bytes of a group in front of others, which is never filled up. -/
def decodeGroup? (a : Base64) (p q r s : Char) : Option Bytes :=
  if s = '=' then none else decodeLast? a p q r s

def decodeList? (a : Base64) : List Char → Option Bytes
  | [] => some []
  | [p, q, r, s] => decodeLast? a p q r s
  | p :: q :: r :: s :: rest => do
    let bs ← decodeGroup? a p q r s
    let more ← decodeList? a rest
    some (bs ++ more)
  | _ => none

def decode? (a : Base64) (text : String) : Option Bytes := decodeList? a text.toList

end Base64

end ContentAddressed
