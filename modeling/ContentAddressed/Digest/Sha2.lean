import ContentAddressed.Digest.Padding

/-!
# The SHA-2 family

One compression function over words of 32 or 64 bits. The short members take the leading halves of
the constants of the long ones.
-/

namespace ContentAddressed.Digest.Sha2

/-- What the family needs of a word: its arithmetic, its width in bytes, the number of rounds and
the four mixing functions. -/
class Word (α : Type) extends Add α, XorOp α, AndOp α, Complement α where
  zero : α
  width : Nat
  rounds : Nat
  /-- Append a byte at the low end. -/
  shiftIn : α → UInt8 → α
  toNat : α → Nat
  /-- The leading bits of a constant of 64 bits. -/
  leading : UInt64 → α
  bigSigma0 : α → α
  bigSigma1 : α → α
  smallSigma0 : α → α
  smallSigma1 : α → α

def rotate32 (w n : UInt32) : UInt32 := (w >>> n) ||| (w <<< (32 - n))

def rotate64 (w n : UInt64) : UInt64 := (w >>> n) ||| (w <<< (64 - n))

instance : Word UInt32 where
  zero := 0
  width := 4
  rounds := 64
  shiftIn w b := (w <<< 8) ||| b.toUInt32
  toNat := UInt32.toNat
  leading c := (c >>> 32).toUInt32
  bigSigma0 w := rotate32 w 2 ^^^ rotate32 w 13 ^^^ rotate32 w 22
  bigSigma1 w := rotate32 w 6 ^^^ rotate32 w 11 ^^^ rotate32 w 25
  smallSigma0 w := rotate32 w 7 ^^^ rotate32 w 18 ^^^ (w >>> 3)
  smallSigma1 w := rotate32 w 17 ^^^ rotate32 w 19 ^^^ (w >>> 10)

instance : Word UInt64 where
  zero := 0
  width := 8
  rounds := 80
  shiftIn w b := (w <<< 8) ||| b.toUInt64
  toNat := UInt64.toNat
  leading c := c
  bigSigma0 w := rotate64 w 28 ^^^ rotate64 w 34 ^^^ rotate64 w 39
  bigSigma1 w := rotate64 w 14 ^^^ rotate64 w 18 ^^^ rotate64 w 41
  smallSigma0 w := rotate64 w 1 ^^^ rotate64 w 8 ^^^ (w >>> 7)
  smallSigma1 w := rotate64 w 19 ^^^ rotate64 w 61 ^^^ (w >>> 6)

/-- Bits of the fractional parts of the cube roots of the first eighty primes. -/
def constants : Array UInt64 := #[
  0x428A2F98D728AE22, 0x7137449123EF65CD, 0xB5C0FBCFEC4D3B2F, 0xE9B5DBA58189DBBC,
  0x3956C25BF348B538, 0x59F111F1B605D019, 0x923F82A4AF194F9B, 0xAB1C5ED5DA6D8118,
  0xD807AA98A3030242, 0x12835B0145706FBE, 0x243185BE4EE4B28C, 0x550C7DC3D5FFB4E2,
  0x72BE5D74F27B896F, 0x80DEB1FE3B1696B1, 0x9BDC06A725C71235, 0xC19BF174CF692694,
  0xE49B69C19EF14AD2, 0xEFBE4786384F25E3, 0x0FC19DC68B8CD5B5, 0x240CA1CC77AC9C65,
  0x2DE92C6F592B0275, 0x4A7484AA6EA6E483, 0x5CB0A9DCBD41FBD4, 0x76F988DA831153B5,
  0x983E5152EE66DFAB, 0xA831C66D2DB43210, 0xB00327C898FB213F, 0xBF597FC7BEEF0EE4,
  0xC6E00BF33DA88FC2, 0xD5A79147930AA725, 0x06CA6351E003826F, 0x142929670A0E6E70,
  0x27B70A8546D22FFC, 0x2E1B21385C26C926, 0x4D2C6DFC5AC42AED, 0x53380D139D95B3DF,
  0x650A73548BAF63DE, 0x766A0ABB3C77B2A8, 0x81C2C92E47EDAEE6, 0x92722C851482353B,
  0xA2BFE8A14CF10364, 0xA81A664BBC423001, 0xC24B8B70D0F89791, 0xC76C51A30654BE30,
  0xD192E819D6EF5218, 0xD69906245565A910, 0xF40E35855771202A, 0x106AA07032BBD1B8,
  0x19A4C116B8D2D0C8, 0x1E376C085141AB53, 0x2748774CDF8EEB99, 0x34B0BCB5E19B48A8,
  0x391C0CB3C5C95A63, 0x4ED8AA4AE3418ACB, 0x5B9CCA4F7763E373, 0x682E6FF3D6B2B8A3,
  0x748F82EE5DEFB2FC, 0x78A5636F43172F60, 0x84C87814A1F0AB72, 0x8CC702081A6439EC,
  0x90BEFFFA23631E28, 0xA4506CEBDE82BDE9, 0xBEF9A3F7B2C67915, 0xC67178F2E372532B,
  0xCA273ECEEA26619C, 0xD186B8C721C0C207, 0xEADA7DD6CDE0EB1E, 0xF57D4F7FEE6ED178,
  0x06F067AA72176FBA, 0x0A637DC5A2C898A6, 0x113F9804BEF90DAE, 0x1B710B35131C471B,
  0x28DB77F523047D84, 0x32CAAB7B40C72493, 0x3C9EBE0A15C9BEBC, 0x431D67C49C100D4C,
  0x4CC5D4BECB3E42B6, 0x597F299CFC657E2A, 0x5FCB6FAB3AD6FAEC, 0x6C44198C4A475817]

structure State (α : Type) where
  a : α
  b : α
  c : α
  d : α
  e : α
  f : α
  g : α
  h : α

/-- Bits of the fractional parts of the square roots of the first eight primes. -/
def roots : State UInt64 :=
  ⟨0x6A09E667F3BCC908, 0xBB67AE8584CAA73B, 0x3C6EF372FE94F82B, 0xA54FF53A5F1D36F1,
   0x510E527FADE682D1, 0x9B05688C2B3E6C1F, 0x1F83D9ABFB41BD6B, 0x5BE0CD19137E2179⟩

def laterRoots : State UInt64 :=
  ⟨0xCBBB9D5DC1059ED8, 0x629A292A367CD507, 0x9159015A3070DD17, 0x152FECD8F70E5939,
   0x67332667FFC00B31, 0x8EB44A8768581511, 0xDB0C2E0D64F98FA7, 0x47B5481DBEFA4FA4⟩

@[specialize] def State.map {α β : Type} (f : α → β) (s : State α) : State β :=
  ⟨f s.a, f s.b, f s.c, f s.d, f s.e, f s.f, f s.g, f s.h⟩

variable {α : Type} [Word α]

/-- The `count` big-endian words at the start of a block. -/
@[specialize] def words : (count : Nat) → Bytes → List α
  | 0, _ => []
  | n + 1, bs =>
    (bs.take (Word.width α)).foldl Word.shiftIn Word.zero :: words n (bs.drop (Word.width α))

/-- The words of all rounds that a block of sixteen expands to. -/
@[specialize] def schedule (block : Bytes) : Array α :=
  Nat.fold (Word.rounds α - 16) (fun i _ w =>
    w.push (Word.smallSigma1 (w.getD (i + 14) Word.zero) + w.getD (i + 9) Word.zero +
      Word.smallSigma0 (w.getD (i + 1) Word.zero) + w.getD i Word.zero))
    (words 16 block).toArray

@[specialize] def round (s : State α) (k : UInt64) (w : α) : State α :=
  let choice := (s.e &&& s.f) ^^^ (~~~s.e &&& s.g)
  let majority := (s.a &&& s.b) ^^^ (s.a &&& s.c) ^^^ (s.b &&& s.c)
  let t := s.h + Word.bigSigma1 s.e + choice + Word.leading k + w
  ⟨t + (Word.bigSigma0 s.a + majority), s.a, s.b, s.c, s.d + t, s.e, s.f, s.g⟩

@[specialize] def compress (s : State α) (block : Bytes) : State α :=
  let w := schedule block
  let t := Nat.fold (Word.rounds α)
    (fun i _ t => round t (constants.getD i 0) (w.getD i Word.zero)) s
  ⟨s.a + t.a, s.b + t.b, s.c + t.c, s.d + t.d, s.e + t.e, s.f + t.f, s.g + t.g, s.h + t.h⟩

def wordBytes (w : α) : Bytes := Bytes.bigEndian (Word.width α) (Word.toNat w)

def State.bytes (s : State α) : Bytes :=
  wordBytes s.a ++ wordBytes s.b ++ wordBytes s.c ++ wordBytes s.d ++
    (wordBytes s.e ++ wordBytes s.f ++ wordBytes s.g ++ wordBytes s.h)

@[simp] theorem State.length_bytes (s : State α) : s.bytes.length = 8 * Word.width α := by
  simp [State.bytes, wordBytes]; omega

def digest256 (message : Bytes) : Bytes :=
  let start : State UInt32 := roots.map Word.leading
  (iterate 64 8 compress start message).bytes

def digest512 (message : Bytes) : Bytes :=
  (iterate 128 16 (compress : State UInt64 → Bytes → State UInt64) roots message).bytes

/-- The long form with its own start, cut to six words. -/
def digest384 (message : Bytes) : Bytes :=
  (iterate 128 16 (compress : State UInt64 → Bytes → State UInt64) laterRoots message).bytes.take 48

@[simp] theorem length_digest256 (message : Bytes) : (digest256 message).length = 32 := by
  simp [digest256, Word.width]

@[simp] theorem length_digest512 (message : Bytes) : (digest512 message).length = 64 := by
  simp [digest512, Word.width]

@[simp] theorem length_digest384 (message : Bytes) : (digest384 message).length = 48 := by
  simp [digest384, Word.width]

end ContentAddressed.Digest.Sha2
