import ContentAddressed.Text.Hex
import ContentAddressed.Yaml.Source

/-!
# YAML scalars

The text of plain, quoted and block scalars. Each reader starts at the first character of the scalar
and answers nothing where the scalar is malformed.
-/

namespace ContentAddressed.Yaml

inductive Style where
  | plain
  | quoted
  | literal
  | folded
  deriving DecidableEq, Repr

namespace Scalar

/-- Several breaks after text: one break is folded into a space, of others the first is dropped. -/
def foldBreaks : (breaks : List Char) → List Char
  | [] => []
  | '\n' :: [] => [' ']
  | '\n' :: more => more
  | breaks => breaks

/-- What blanks and breaks between two words stand for. -/
def foldGap (gap : List Char) : List Char :=
  let breaks := gap.filter isBreak
  if breaks.isEmpty then gap else foldBreaks breaks

/-- Whether a tab stands in front of the given column on a line of its own. -/
def hasTabBefore (limit : Nat) (gap : List Char) : Bool :=
  (gap.foldl (fun (found, column) c =>
    if isBreak c then (found, some 0)
    else match column with
      | some n => (found || (c == '\t' && n < limit), some (n + 1))
      | none => (found, none)) (false, (none : Option Nat))).1

/-! ## Plain scalars -/

def isFlowIndicator (c : Char) : Bool :=
  c == ',' || c == '[' || c == ']' || c == '\x7b' || c == '\x7d'

def wordLength? (inFlow : Bool) : List Char → Option Nat
  | [] => some 0
  | c :: cs =>
    if isGap c then some 0
    else if c = ':' ∧ inFlow ∧ (cs.head?.any fun d => isFlowIndicator d || d == '?') then none
    else if c = ':' ∧ (cs.head?.all isGap) then some 0
    else if inFlow ∧ isFlowIndicator c then some 0
    else (wordLength? inFlow cs).map (· + 1)

/-- A plain scalar with its text so far and the gap before the next word. The flag tells whether the
scalar ends on a line after its last word. -/
def plainFrom (inFlow : Bool) (floor : Nat) :
    (fuel : Nat) → (text gap : List Char) → Source → Option (List Char × Bool × Source)
  | 0, _, _, _ => none
  | fuel + 1, text, gap, s =>
    let broken := gap.any isBreak
    if s.atDocumentEdge || s.head? = some '#' then some (text, broken, s)
    else do
      let n ← wordLength? inFlow s.rest
      if n = 0 then some (text, broken, s)
      else
        let text := text ++ foldGap gap ++ s.rest.take n
        let (gap, after) := (s.skip n).span isGap
        if hasTabBefore floor gap then none
        else if gap.isEmpty then some (text, false, after)
        else if !inFlow && after.column < floor then some (text, gap.any isBreak, after)
        else plainFrom inFlow floor fuel text gap after

/-- A plain scalar of which continuation lines start at the column `floor` or further right. -/
def plain? (inFlow : Bool) (floor : Nat) (s : Source) : Option (String × Bool × Source) := do
  let (text, broken, s) ← plainFrom inFlow floor (s.rest.length + 1) [] [] s
  return (String.ofList text, broken, s)

/-! ## Quoted scalars -/

/-- The characters that a backslash and one more character stand for. -/
def escapes : List (Char × Char) :=
  [('0', '\x00'), ('a', '\x07'), ('b', '\x08'), ('t', '\t'), ('\t', '\t'), ('n', '\n'),
   ('v', '\x0b'), ('f', '\x0c'), ('r', '\r'), ('e', '\x1b'), (' ', ' '), ('"', '"'), ('/', '/'),
   ('\\', '\\'), ('N', '\u0085'), ('_', '\u00a0'), ('L', '\u2028'), ('P', '\u2029')]

/-- How many hexadecimal digits follow an escape that names a code point. -/
def codeDigits? (c : Char) : Option Nat :=
  if c = 'x' then some 2 else if c = 'u' then some 4 else if c = 'U' then some 8 else none

def charOfDigits? (digits : List Char) : Option Char := do
  let n ← digits.foldlM (fun n d => (Hex.value? d).map fun v => n * 16 + v) 0
  if n.isValidChar then some (Char.ofNat n) else none

/-- The character of an escape, from what follows the backslash, and how long the escape is. -/
def escape? : List Char → Option (Char × Nat)
  | [] => none
  | c :: cs =>
    match codeDigits? c with
    | some n =>
      if cs.length < n then none else (charOfDigits? (cs.take n)).map fun d => (d, n + 2)
    | none => (escapes.lookup c).map fun d => (d, 2)

/-- What the next characters of a quoted scalar stand for. -/
inductive Piece where
  /-- A character of the text, from so many characters of the source. -/
  | char (c : Char) (size : Nat)
  /-- A break that a backslash takes out of the text. -/
  | hiddenBreak
  /-- Blanks, breaks or the closing quote follow. -/
  | stop

/-- The next piece of a quoted scalar, where the source does not end. -/
def piece? (quote : Char) : List Char → Option Piece
  | [] => none
  | c :: cs =>
    if isGap c then some .stop
    else if quote = '\'' ∧ c = '\'' ∧ cs.head? = some '\'' then some (.char '\'' 2)
    else if c = quote then some .stop
    else if quote = '"' ∧ c = '\\' then
      if cs.head?.any isBreak then some .hiddenBreak
      else (escape? cs).map fun e => .char e.1 e.2
    else some (.char c 1)

/-- The rest of a quoted scalar, from a place where a word may start. -/
def quotedFrom (quote : Char) :
    (fuel : Nat) → (text : List Char) → Source → Option (List Char × Source)
  | 0, _, _ => none
  | fuel + 1, text, s => do
    if s.atDocumentEdge then none
    else match ← piece? quote s.rest with
      | .char c size => quotedFrom quote fuel (text ++ [c]) (s.skip size)
      | .hiddenBreak =>
        let (gap, s) := (s.skip 2).span isGap
        quotedFrom quote fuel (text ++ gap.filter isBreak) s
      | .stop =>
        if s.head? = some quote then some (text, s.advance)
        else
          let (gap, s) := s.span isGap
          quotedFrom quote fuel (text ++ foldGap gap) s

def quoted? (s : Source) : Option (String × Source) := do
  let quote ← s.head?
  let (text, s) ← quotedFrom quote s.rest.length [] s.advance
  return (String.ofList text, s)

/-! ## Block scalars -/

/-- What becomes of the breaks at the end of a block scalar. -/
inductive Chomping where
  | strip
  | clip
  | keep
  deriving DecidableEq, Repr

structure BlockHeader where
  folded : Bool
  chomping : Chomping := .clip
  /-- How much further than its collection the text is indented, if that is said. -/
  increment : Option Nat := none

/-- Read an indicator after the first one; each kind may stand once, and a size is not zero. -/
def BlockHeader.add? (h : BlockHeader) (c : Char) : Option BlockHeader :=
  if (c = '+' ∨ c = '-') ∧ h.chomping = .clip then
    some { h with chomping := if c = '+' then .keep else .strip }
  else if c.isDigit ∧ c ≠ '0' ∧ h.increment = none then
    some { h with increment := some (c.toNat - '0'.toNat) }
  else none

def isBlockIndicator (c : Char) : Bool := c == '+' || c == '-' || c.isDigit

/-- The header of a block scalar, up to the end of its line. -/
def blockHeader? (s : Source) : Option (BlockHeader × Source) := do
  let (indicators, after) := s.advance.span isBlockIndicator
  let h ← indicators.foldlM BlockHeader.add? { folded := s.head? = some '>' }
  return (h, ← after.finishLine?)

/-- Spaces and breaks in front of a line of text: the breaks, the widest indentation seen, and the
source after them. Without an indentation all spaces are skipped. -/
def blockBreaks (indent : Option Nat) :
    (fuel widest : Nat) → (breaks : List Char) → Source → Option (List Char × Nat × Source)
  | 0, _, _, _ => none
  | fuel + 1, widest, breaks, s =>
    let spaces := (s.rest.takeWhile (· == ' ')).length
    let s := s.skip (match indent with
      | some n => min spaces (n - s.column)
      | none => spaces)
    let widest := max widest s.column
    if s.head? = some '\t' ∧ (indent.all fun n => s.column < n) then none
    else match s.head? with
      | some c =>
        if isBreak c then blockBreaks indent fuel widest (breaks ++ [c]) s.advance
        else some (breaks, widest, s)
      | none => some (breaks, widest, s)

/-- The lines of a block scalar after the text so far, which ends with the break `last` and the
empty lines `breaks`. -/
def blockLines (folded : Bool) (indent : Nat) :
    (fuel : Nat) → (text last breaks : List Char) → (wasBlank : Bool) → Source →
      Option (List Char × List Char × List Char × Source)
  | 0, _, _, _, _, _ => none
  | fuel + 1, text, last, breaks, wasBlank, s =>
    match s.head? with
    | none => some (text, last, breaks, s)
    | some c =>
      if s.column ≠ indent then some (text, last, breaks, s)
      else do
        let blank := isBlank c
        let joint :=
          if folded ∧ last = ['\n'] ∧ !wasBlank ∧ !blank then
            (if breaks.isEmpty then [' '] else breaks)
          else last ++ breaks
        let (line, s) := s.span fun c => !isBreak c
        let last := s.rest.take 1
        let (breaks, _, s) ← blockBreaks (some indent) (s.rest.length + 1) 0 [] s.advance
        blockLines folded indent fuel (text ++ joint ++ line) last breaks blank s

/-- A block scalar in a collection that starts at a column, or outside of all collections. -/
def block? (column : Option Nat) (s : Source) : Option (Style × String × Source) := do
  let (h, s) ← blockHeader? s
  let asked := h.increment.map fun n => column.getD 0 + n
  let (breaks, widest, s) ← blockBreaks asked (s.rest.length + 1) 0 [] s
  let indent := asked.getD (max widest (max ((column.map (· + 1)).getD 0) 1))
  let (text, last, breaks, s) ←
    blockLines h.folded indent (s.rest.length + 1) [] [] breaks false s
  let tail := match h.chomping with
    | .strip => []
    | .clip => last
    | .keep => last ++ breaks
  return (if h.folded then .folded else .literal, String.ofList (text ++ tail), s)

end Scalar

end ContentAddressed.Yaml
