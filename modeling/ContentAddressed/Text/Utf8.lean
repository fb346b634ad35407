import ContentAddressed.Bytes

/-!
# UTF-8

Strict reading and writing, and the lenient reading in which each malformed sequence becomes the
replacement character.
-/

namespace ContentAddressed.Utf8

def encode (s : String) : Bytes := s.toUTF8.data.toList

def decode? (bs : Bytes) : Option String := String.fromUTF8? ⟨bs.toArray⟩

def replacement : Char := '\ufffd'

/-- How a lead byte starts a sequence: how many bytes follow it, its own bits, and the bounds of the
second byte. -/
def lead? (b : UInt8) : Option (Nat × Nat × Nat × Nat) :=
  let n := b.toNat
  if 0xC2 ≤ n ∧ n ≤ 0xDF then some (1, n - 0xC0, 0x80, 0xBF)
  else if n = 0xE0 then some (2, 0, 0xA0, 0xBF)
  else if n = 0xED then some (2, 0xD, 0x80, 0x9F)
  else if 0xE1 ≤ n ∧ n ≤ 0xEF then some (2, n - 0xE0, 0x80, 0xBF)
  else if n = 0xF0 then some (3, 0, 0x90, 0xBF)
  else if n = 0xF4 then some (3, 4, 0x80, 0x8F)
  else if 0xF1 ≤ n ∧ n ≤ 0xF3 then some (3, n - 0xF0, 0x80, 0xBF)
  else none

/-- A sequence in progress: bytes still missing, bits so far, and the bounds of the next byte. -/
structure Pending where
  missing : Nat
  bits : Nat
  low : Nat
  high : Nat

/-- The characters of a byte that starts anew, and what it leaves in progress. -/
def start (b : UInt8) : List Char × Option Pending :=
  if b < 0x80 then ([Char.ofNat b.toNat], none)
  else match lead? b with
    | some (missing, bits, low, high) => ([], some ⟨missing, bits, low, high⟩)
    | none => ([replacement], none)

def step (pending : Option Pending) (b : UInt8) : List Char × Option Pending :=
  match pending with
  | none => start b
  | some p =>
    if p.low ≤ b.toNat ∧ b.toNat ≤ p.high then
      let bits := p.bits * 64 + b.toNat % 64
      if p.missing = 1 then ([Char.ofNat bits], none)
      else ([], some ⟨p.missing - 1, bits, 0x80, 0xBF⟩)
    else
      let (cs, after) := start b
      (replacement :: cs, after)

def decodeLenient (bs : Bytes) : String :=
  let (chars, pending) := bs.foldl (fun (acc : Array Char × Option Pending) b =>
    let (cs, after) := step acc.2 b
    (acc.1.appendList cs, after)) (#[], none)
  String.ofList (chars.toList ++ if pending.isSome then [replacement] else [])

end ContentAddressed.Utf8
