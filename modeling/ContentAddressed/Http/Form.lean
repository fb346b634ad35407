import ContentAddressed.Http.MediaType
import ContentAddressed.Http.Message
import ContentAddressed.Http.Percent

/-!
# Forms

A form is sent as parts between lines that repeat a boundary. Each part has header lines, one of
which states the name of the field, an empty line, and the value.
-/

namespace ContentAddressed.Http.Form

def lineEnd : Bytes := [0x0D, 0x0A]

def dashes : Bytes := [0x2D, 0x2D]

def delimiter (boundary : String) : Bytes := dashes ++ Utf8.encode boundary

/-- What stands before and after the first occurrence of a pattern; `before` holds what was passed
already, last byte first. -/
def cutFrom (pattern : Bytes) : (before : Bytes) → Bytes → Option (Bytes × Bytes)
  | before, [] => if pattern.isEmpty then some (before.reverse, []) else none
  | before, b :: bs =>
    if pattern.isPrefixOf (b :: bs) then
      some (before.reverse, (b :: bs).drop pattern.length)
    else cutFrom pattern (b :: before) bs

/-- What stands before and after the first occurrence of a pattern. -/
def cut? (pattern bs : Bytes) : Option (Bytes × Bytes) := cutFrom pattern [] bs

/-! ## Header lines -/

def headerLimit : Nat := 32

def isPadding (b : UInt8) : Bool := b == 0x20 || b == 0x09

def isTokenByte (b : UInt8) : Bool := MediaType.isTokenChar (Char.ofNat b.toNat)

def isValueByte (b : UInt8) : Bool := b == 0x09 || (0x20 ≤ b && b != 0x7F)

def isLineByte (b : UInt8) : Bool := b == 0x0D || b == 0x0A

/-- Past the end of a line, with or without a carriage return. -/
def endLine? : Bytes → Option Bytes
  | 0x0D :: 0x0A :: rest => some rest
  | 0x0A :: rest => some rest
  | _ => none

/-- Header lines up to an empty line: names in lower case, and values without blanks at the ends. -/
def headersFrom : (limit : Nat) → Bytes → Option (List (String × Bytes))
  | limit, bs =>
    if (endLine? bs).isSome then some []
    else match limit with
      | 0 => none
      | limit + 1 => do
        let name := bs.takeWhile isTokenByte
        match bs.drop name.length with
        | 0x3A :: rest =>
          let rest := rest.dropWhile isPadding
          let value := rest.takeWhile fun b => !isLineByte b
          let after ← endLine? (rest.drop value.length)
          if name.isEmpty ∨ ¬ value.all isValueByte then none
          else
            let trimmed := (value.reverse.dropWhile isPadding).reverse
            return (Ascii.lowercase (Ascii.decode name), trimmed) :: (← headersFrom limit after)
        | _ => none

/-! ## Field names -/

def isSpace (b : UInt8) : Bool :=
  b == 0x20 || b == 0x09 || b == 0x0A || b == 0x0C || b == 0x0D

def after? (b : UInt8) (bs : Bytes) : Option Bytes :=
  match bs.dropWhile isSpace with
  | [] => none
  | c :: rest => if c = b then some rest else none

/-- A text up to a quote; a backslash keeps a quote in it. -/
def quotedText? : Bytes → Option Bytes
  | [] => none
  | 0x22 :: _ => some []
  | 0x5C :: 0x22 :: rest => (quotedText? rest).map (0x22 :: ·)
  | b :: rest => (quotedText? rest).map (b :: ·)

/-- The value after an equals sign; without quotes it ends at a semicolon or a space. -/
def parameterText? (bs : Bytes) : Option String :=
  match after? 0x22 bs with
  | some rest => (quotedText? rest).bind Utf8.decode?
  | none =>
    let plain := (bs.dropWhile isSpace).takeWhile fun b => b != 0x3B && b != 0x20
    (Utf8.decode? plain).bind percentDecode?

def isParameterEdge (b : UInt8) : Bool := isSpace b || b == 0x3B

/-- The name that a disposition states, from a place in it. The byte `previous` stands in front of
that place, and the next `skipped` bytes are read already. -/
def nameFrom? : (previous : Option UInt8) → (skipped : Nat) → Bytes → Option String
  | _, _, [] => none
  | previous, skipped + 1, _ :: bs => nameFrom? previous skipped bs
  | previous, 0, b :: bs =>
    let word := Utf8.encode "name"
    if word.isPrefixOf (b :: bs) then
      match after? 0x3D ((b :: bs).drop word.length), previous.all isParameterEdge with
      | some rest, true => parameterText? rest
      | _, _ => nameFrom? none (word.length - 1) bs
    else nameFrom? (some b) 0 bs

/-- The name of a field; a part that states none has an empty one. -/
def fieldName (headers : List (String × Bytes)) : String :=
  ((headers.reverse.lookup "content-disposition").bind (nameFrom? none 0)).getD ""

/-! ## Parts -/

def partsFrom (boundary : String) : (fuel : Nat) → Bytes → Option (List Part)
  | 0, _ => none
  | fuel + 1, bs =>
    if dashes.isPrefixOf bs then some []
    else
      let line := bs.dropWhile isPadding
      if lineEnd.isPrefixOf line then do
        let (head, rest) ← cut? (lineEnd ++ lineEnd) (line.drop lineEnd.length)
        let headers ← headersFrom headerLimit (head ++ lineEnd ++ lineEnd)
        let (value, rest) ← cut? (lineEnd ++ delimiter boundary) rest
        let kind := (headers.reverse.lookup "content-type").map Ascii.decode
        return ⟨fieldName headers, kind, value⟩ :: (← partsFrom boundary fuel rest)
      else none

/-- The parts of a body; what stands before the first delimiter and after the last is ignored. -/
def read? (boundary : String) (body : Bytes) : Option (List Part) := do
  let (_, rest) ← cut? (delimiter boundary) body
  partsFrom boundary (rest.length + 1) rest

def writeHeaders (p : Part) : Bytes :=
  Utf8.encode ("Content-Disposition: form-data; name=" ++ "\"" ++ p.name ++ "\"") ++ lineEnd ++
    match p.contentType with
    | some kind => Utf8.encode ("Content-Type: " ++ kind) ++ lineEnd
    | none => []

def write (boundary : String) (parts : List Part) : Bytes :=
  (parts.flatMap fun p =>
    delimiter boundary ++ lineEnd ++ writeHeaders p ++ lineEnd ++ p.value ++ lineEnd) ++
    delimiter boundary ++ dashes ++ lineEnd

end ContentAddressed.Http.Form
