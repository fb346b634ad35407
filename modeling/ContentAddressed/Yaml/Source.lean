/-!
# YAML text

The characters of a stream and the place of the next one. Line breaks are unified before anything
else is read, so that every break is one character.
-/

namespace ContentAddressed.Yaml

def isAllowed (c : Char) : Bool :=
  let n := c.toNat
  n = 0x9 || n = 0xA || n = 0xD || (0x20 ≤ n && n ≤ 0x7E) || n = 0x85 || (0xA0 ≤ n && n ≤ 0xD7FF) ||
    (0xE000 ≤ n && n ≤ 0xFFFD) || 0x10000 ≤ n

def isBreak (c : Char) : Bool := c == '\n' || c == '\u2028' || c == '\u2029'

def isBlank (c : Char) : Bool := c == ' ' || c == '\t'

def isGap (c : Char) : Bool := isBlank c || isBreak c

/-- The characters of anchors, tag handles and directive names. -/
def isNameChar (c : Char) : Bool := c.isAlphanum || c == '_' || c == '-'

def byteOrderMark : Char := '\ufeff'

/-- The text with a line feed for each carriage return, with or without a line feed, and for each
next-line character. -/
def unifyBreaks : List Char → List Char
  | [] => []
  | '\r' :: '\n' :: cs => '\n' :: unifyBreaks cs
  | c :: cs => (if c = '\r' ∨ c = '\u0085' then '\n' else c) :: unifyBreaks cs

structure Source where
  rest : List Char
  line : Nat := 0
  column : Nat := 0

namespace Source

/-- The start of a stream; a byte order mark in front is no part of it. -/
def start? (text : String) : Option Source :=
  let cs := text.toList
  if cs.all isAllowed then
    some ⟨unifyBreaks (if cs.head? = some byteOrderMark then cs.tail else cs), 0, 0⟩
  else none

def head? (s : Source) : Option Char := s.rest.head?

/-- Whether a separator, or the end of the stream, stands after `n` characters. -/
def gapAfter (s : Source) (n : Nat) : Bool := (s.rest[n]?).all isGap

def atLineEnd (s : Source) : Bool := s.head?.all isBreak

def advance (s : Source) : Source :=
  match s.rest with
  | [] => s
  | c :: cs => if isBreak c then ⟨cs, s.line + 1, 0⟩ else ⟨cs, s.line, s.column + 1⟩

def skip : Nat → Source → Source
  | 0, s => s
  | n + 1, s => skip n s.advance

/-- The longest run of characters that satisfy a test, and the source after it. -/
def span (p : Char → Bool) (s : Source) : List Char × Source :=
  let taken := s.rest.takeWhile p
  (taken, s.skip taken.length)

def skipWhile (p : Char → Bool) (s : Source) : Source := (s.span p).2

def skipLineRest (s : Source) : Source := s.skipWhile fun c => !isBreak c

/-- Past blanks, a comment and the line break after them; other text is refused. -/
def finishLine? (s : Source) : Option Source :=
  let s := s.skipWhile isBlank
  let s := if s.head? = some '#' then s.skipLineRest else s
  if s.atLineEnd then some s.advance else none

/-- Whether a document marker made of the given character stands here. -/
def atMarker (c : Char) (s : Source) : Bool :=
  s.column = 0 && s.rest.take 3 == [c, c, c] && s.gapAfter 3

def atDocumentEdge (s : Source) : Bool := s.atMarker '-' || s.atMarker '.'

end Source

end ContentAddressed.Yaml
