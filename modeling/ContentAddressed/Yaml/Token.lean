import ContentAddressed.Yaml.Scalar
import ContentAddressed.Yaml.Tag

/-!
# YAML tokens

The tokens of a stream. Indentation shows as tokens that open and close block collections. A key is
known only by the colon after it; its tokens are then put in front of where it started.
-/

namespace ContentAddressed.Yaml

inductive Token where
  | blockSequence
  | blockMapping
  | blockEnd
  | flowSequence
  | flowSequenceEnd
  | flowMapping
  | flowMappingEnd
  | blockEntry
  | flowEntry
  | key
  | value
  | documentStart
  | documentEnd
  | version (major minor : Nat)
  | tagHandle (handle lead : List Char)
  | anchor (name : String)
  | alias (name : String)
  | tag (t : Tag)
  | scalar (style : Style) (text : String)
  deriving DecidableEq, Repr

namespace Token

structure KeyStart where
  /-- Whether what started there must turn out to be a key. -/
  required : Bool
  /-- How many tokens came before. -/
  position : Nat
  line : Nat
  column : Nat

structure Scan where
  source : Source
  tokens : Array Token := #[]
  /-- The columns of the open block collections, the innermost first. -/
  columns : List Nat := []
  /-- Where a key may have started in the innermost flow collection, or outside of them. -/
  start : Option KeyStart := none
  /-- The same for the collections around it, one for each flow collection that is open. -/
  outer : List (Option KeyStart) := []
  /-- Whether a key may start here. -/
  keyAllowed : Bool := true

namespace Scan

def inFlow (s : Scan) : Bool := !s.outer.isEmpty

def push (t : Token) (s : Scan) : Scan := { s with tokens := s.tokens.push t }

def insert (position : Nat) (t : Token) (s : Scan) : Scan :=
  { s with tokens := s.tokens.insertIdxIfInBounds position t }

def accept (n : Nat) (t : Token) (s : Scan) : Scan :=
  { s.push t with source := s.source.skip n }

def allowKey (allowed : Bool) (s : Scan) : Scan := { s with keyAllowed := allowed }

/-- The column that text of the innermost block collection reaches at least. -/
def floor (s : Scan) : Nat := (s.columns.head?.map (· + 1)).getD 0

/-- Close the block collections that start to the right of a column, or all of them. -/
def closeBlocks (column : Option Nat) (s : Scan) : Scan :=
  if s.inFlow then s
  else
    let closed := s.columns.takeWhile fun c => column.all (· < c)
    { s with columns := s.columns.drop closed.length,
             tokens := s.tokens ++ closed.map fun _ => Token.blockEnd }

/-- Open a block collection at a column unless the innermost one starts there. -/
def openBlock (column position : Nat) (t : Token) (s : Scan) : Scan :=
  if s.inFlow || s.columns.head?.any (column ≤ ·) then s
  else { s.insert position t with columns := column :: s.columns }

def openBlockHere (t : Token) (s : Scan) : Scan :=
  s.openBlock s.source.column s.tokens.size t

def dropStart (s : Scan) : Option Scan :=
  if s.start.any (·.required) then none else some { s with start := none }

def noteStart (s : Scan) : Option Scan :=
  if s.keyAllowed then do
    let required := !s.inFlow && s.columns.head? == some s.source.column
    let s ← s.dropStart
    return { s with start := some ⟨required, s.tokens.size, s.source.line, s.source.column⟩ }
  else some s

def keyLimit : Nat := 1024

/-- Whether a key that started earlier can no longer be one: it is on one line, and not long. -/
def isStale (s : Scan) (k : KeyStart) : Bool :=
  k.line < s.source.line || k.column + keyLimit < s.source.column

def fresh? (s : Scan) (k : Option KeyStart) : Option KeyStart := k.filter fun k => !s.isStale k

def dropStale (s : Scan) : Option Scan :=
  if (s.start :: s.outer).any fun k => k.any fun k => s.isStale k && k.required then none
  else some { s with start := s.fresh? s.start, outer := s.outer.map s.fresh? }

/-- Past blanks, comments and empty lines. A tab is no blank where a key could start. -/
def skipGaps : (fuel : Nat) → Scan → Scan
  | 0, s => s
  | fuel + 1, s =>
    let source := if s.source.column = 0 ∧ s.source.head? = some byteOrderMark then s.source.advance
      else s.source
    let tabs := s.inFlow || !s.keyAllowed
    let source := source.skipWhile fun c => c == ' ' || (tabs && c == '\t')
    let source := if source.head? = some '#' then source.skipLineRest else source
    if source.head?.any isBreak then
      skipGaps fuel { s with source := source.advance, keyAllowed := s.keyAllowed || !s.inFlow }
    else { s with source := source }

/-! ## The kinds of token -/

/-- A number of a version, which has at most nine digits. -/
def versionNumber? (s : Source) : Option (Nat × Source) :=
  let (digits, s) := s.span Char.isDigit
  if digits.isEmpty ∨ 9 < digits.length then none
  else some (digits.foldl (fun n d => n * 10 + (d.toNat - '0'.toNat)) 0, s)

def versionDirective? (s : Source) : Option (Token × Source) := do
  let (major, s) ← versionNumber? (s.skipWhile isBlank)
  if s.head? ≠ some '.' then none
  else
    let (minor, s) ← versionNumber? s.advance
    return (.version major minor, s)

def tagDirective? (s : Source) : Option (Token × Source) := do
  let (handle, s) ← Tag.handle? (s.skipWhile isBlank)
  if (1 < handle.length ∧ handle.getLast? ≠ some '!') ∨ !s.head?.any isBlank then none
  else
    let (lead, s) ← Tag.suffix? true (s.skipWhile isBlank)
    if lead.isEmpty ∨ !s.gapAfter 0 then none else return (.tagHandle handle lead, s)

def leaveBlocks (s : Scan) : Option Scan := do
  let s ← (s.closeBlocks none).dropStart
  return s.allowKey false

def directive (s : Scan) : Option Scan := do
  let s ← s.leaveBlocks
  let (name, source) := s.source.advance.span isNameChar
  if !source.gapAfter 0 then none
  else
    let (token, source) ←
      if name = "YAML".toList then versionDirective? source
      else if name = "TAG".toList then tagDirective? source
      else none
    return { s.push token with source := (← source.finishLine?) }

def documentMarker (t : Token) (s : Scan) : Option Scan := do
  return (← s.leaveBlocks).accept 3 t

def openFlow (t : Token) (s : Scan) : Option Scan := do
  let s ← s.noteStart
  return { s.accept 1 t with start := none, outer := s.start :: s.outer, keyAllowed := true }

def closeFlow (t : Token) (s : Scan) : Option Scan := do
  let s ← s.dropStart
  let s := match s.outer with
    | [] => s
    | k :: outer => { s with start := k, outer := outer }
  return (s.allowKey false).accept 1 t

def flowEntry (s : Scan) : Option Scan := do
  return ((← s.dropStart).allowKey true).accept 1 .flowEntry

def blockEntry (s : Scan) : Option Scan :=
  if !s.inFlow && !s.keyAllowed then none
  else do
    return ((← (s.openBlockHere .blockSequence).dropStart).allowKey true).accept 1 .blockEntry

def explicitKey (s : Scan) : Option Scan :=
  if !s.inFlow && !s.keyAllowed then none
  else do
    return ((← (s.openBlockHere .blockMapping).dropStart).allowKey !s.inFlow).accept 1 .key

/-- A colon: it turns what started before into a key, or follows an explicit key. -/
def value (s : Scan) : Option Scan :=
  match s.start with
  | some k =>
    let s := (s.insert k.position .key).openBlock k.column k.position .blockMapping
    some (({ s with start := none }.allowKey false).accept 1 .value)
  | none =>
    if !s.inFlow && !s.keyAllowed then none
    else some (((s.openBlockHere .blockMapping).allowKey !s.inFlow).accept 1 .value)

/-- The characters that may follow an anchor or alias without a separator. -/
def endsAnchor (c : Char) : Bool := isGap c || "?:,]\x7d%@\x60".toList.contains c

def anchor (make : String → Token) (s : Scan) : Option Scan := do
  let s ← s.noteStart
  let (name, source) := s.source.advance.span isNameChar
  if name.isEmpty ∨ !source.head?.all endsAnchor then none
  else return { s.push (make (String.ofList name)) with source := source, keyAllowed := false }

def tag (s : Scan) : Option Scan := do
  let s ← s.noteStart
  let (t, source) ← Tag.read? s.inFlow s.source
  return { s.push (.tag t) with source := source, keyAllowed := false }

def blockScalar (s : Scan) : Option Scan := do
  let s ← s.dropStart
  let (style, text, source) ← Scalar.block? s.columns.head? s.source
  return { s.push (.scalar style text) with source := source, keyAllowed := true }

def quotedScalar (s : Scan) : Option Scan := do
  let s ← s.noteStart
  let (text, source) ← Scalar.quoted? s.source
  return { s.push (.scalar .quoted text) with source := source, keyAllowed := false }

def plainScalar (s : Scan) : Option Scan := do
  let s ← s.noteStart
  let (text, broken, source) ← Scalar.plain? s.inFlow s.floor s.source
  return { s.push (.scalar .plain text) with source := source, keyAllowed := broken }

def isIndicator (c : Char) : Bool := "-?:,[]\x7b\x7d#&*!|>'\"%@\x60".toList.contains c

/-- Whether a plain scalar starts with a character that stands here. -/
def startsPlain (s : Scan) (c : Char) : Bool :=
  !(isGap c || isIndicator c) || (c == '-' && !(s.source.rest[1]?).any isBlank) ||
    (!s.inFlow && (c == '?' || c == ':') && !s.source.gapAfter 1)

/-- The token that starts with a character that stands here. -/
def token (s : Scan) (c : Char) : Option Scan :=
  if s.source.column = 0 ∧ c = '%' then s.directive
  else if s.source.atMarker '-' then s.documentMarker .documentStart
  else if s.source.atMarker '.' then s.documentMarker .documentEnd
  else if c = '[' then s.openFlow .flowSequence
  else if c = '\x7b' then s.openFlow .flowMapping
  else if c = ']' then s.closeFlow .flowSequenceEnd
  else if c = '\x7d' then s.closeFlow .flowMappingEnd
  else if c = ',' then s.flowEntry
  else if c = '-' ∧ s.source.gapAfter 1 then s.blockEntry
  else if c = '?' ∧ (s.inFlow ∨ s.source.gapAfter 1) then s.explicitKey
  else if c = ':' ∧ (s.inFlow ∨ s.source.gapAfter 1) then s.value
  else if c = '*' then s.anchor .alias
  else if c = '&' then s.anchor .anchor
  else if c = '!' then s.tag
  else if (c = '|' ∨ c = '>') ∧ !s.inFlow then s.blockScalar
  else if c = '\'' ∨ c = '"' then s.quotedScalar
  else if s.startsPlain c then s.plainScalar
  else none

/-- The scan from here to the end of the stream; each token takes at least one character. -/
def finish : (fuel : Nat) → Scan → Option Scan
  | 0, _ => none
  | fuel + 1, s => do
    let s ← (s.skipGaps (s.source.rest.length + 1)).dropStale
    let s := s.closeBlocks (some s.source.column)
    match s.source.head? with
    | none => (s.closeBlocks none).dropStart
    | some c => finish fuel (← s.token c)

end Scan

/-- The tokens of a stream, if each of its parts is well formed. -/
def scan? (text : String) : Option (List Token) := do
  let source ← Source.start? text
  let s ← Scan.finish (source.rest.length + 1) { source := source }
  return s.tokens.toList

end Token

end ContentAddressed.Yaml
