import ContentAddressed.Text.Hex
import ContentAddressed.Text.Utf8
import ContentAddressed.Yaml.Source

/-!
# YAML tags

A tag is a handle, which stands for a leading text, and a suffix.
-/

namespace ContentAddressed.Yaml

structure Tag where
  handle : List Char
  suffix : List Char
  deriving DecidableEq, Repr

namespace Tag

/-- The handles that need no declaration, and what they stand for. -/
def standardHandles : List (List Char × List Char) :=
  [(['!'], ['!']), (['!', '!'], "tag:yaml.org,2002:".toList)]

def resolve? (handles : List (List Char × List Char)) (t : Tag) : Option String :=
  if t.handle.isEmpty then some (String.ofList t.suffix)
  else (handles.lookup t.handle).map fun lead => String.ofList (lead ++ t.suffix)

/-- The characters of a suffix; between angle brackets more are allowed. -/
def isSuffixChar (verbatim : Bool) (c : Char) : Bool :=
  isNameChar c || ";/?:@&=+$.%!~*'()".toList.contains c || (verbatim && ",[]".toList.contains c)

/-- How many bytes a character takes whose first byte is given. -/
def escapedSize? (b : Nat) : Option Nat :=
  if b < 0x80 then some 1
  else if b / 0x20 = 6 then some 2
  else if b / 0x10 = 14 then some 3
  else if b / 0x8 = 30 then some 4
  else none

/-- The byte of a percent escape at the front, and what follows. -/
def escapedByte? : List Char → Option (Nat × List Char)
  | '%' :: a :: b :: rest => do return ((← Hex.value? a) * 16 + (← Hex.value? b), rest)
  | _ => none

def escapedTail? : (count : Nat) → List Char → Option (Bytes × List Char)
  | 0, cs => some ([], cs)
  | n + 1, cs => do
    let (b, cs) ← escapedByte? cs
    if b / 0x40 = 2 then
      let (bs, cs) ← escapedTail? n cs
      return (UInt8.ofNat b :: bs, cs)
    else none

/-- The characters of a suffix with their escapes read. -/
def unescape? : (fuel : Nat) → List Char → Option (List Char)
  | 0, _ => none
  | _ + 1, [] => some []
  | fuel + 1, c :: cs =>
    if c = '%' then do
      let (b, rest) ← escapedByte? (c :: cs)
      let (bs, rest) ← escapedTail? ((← escapedSize? b) - 1) rest
      return (Utf8.decodeLenient (UInt8.ofNat b :: bs)).toList ++ (← unescape? fuel rest)
    else do return c :: (← unescape? fuel cs)

def suffix? (verbatim : Bool) (s : Source) : Option (List Char × Source) := do
  let (cs, s) := s.span (isSuffixChar verbatim)
  return (← unescape? (cs.length + 1) cs, s)

/-- What looks like a handle: an exclamation mark, name characters, and perhaps a second mark. -/
def handle? (s : Source) : Option (List Char × Source) :=
  if s.head? = some '!' then
    let (name, s) := s.advance.span isNameChar
    if s.head? = some '!' then some (['!'] ++ name ++ ['!'], s.advance)
    else some ('!' :: name, s)
  else none

def verbatim? (s : Source) : Option (Tag × Source) := do
  let (suffix, s) ← suffix? true (s.skip 2)
  if suffix.isEmpty ∨ s.head? ≠ some '>' then none else return (⟨[], suffix⟩, s.advance)

/-- A tag with a handle; a mark and a suffix have the shortest handle, and a mark alone has none. -/
def shorthand? (s : Source) : Option (Tag × Source) := do
  let (lead, s) ← handle? s
  let (suffix, s) ← suffix? false s
  if 1 < lead.length ∧ lead.getLast? = some '!' then
    if suffix.isEmpty then none else return (⟨lead, suffix⟩, s)
  else
    let suffix := lead.tail ++ suffix
    return (if suffix.isEmpty then ⟨[], ['!']⟩ else ⟨['!'], suffix⟩, s)

def read? (inFlow : Bool) (s : Source) : Option (Tag × Source) := do
  let (tag, s) ← if s.rest[1]? = some '<' then verbatim? s else shorthand? s
  if s.gapAfter 0 ∨ (inFlow ∧ s.head? = some ',') then return (tag, s) else none

end Tag

end ContentAddressed.Yaml
