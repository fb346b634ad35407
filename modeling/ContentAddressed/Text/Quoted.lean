import ContentAddressed.Text.Hex

/-!
# Quoted text and record views

Descriptions of values for people: texts in quotes, and named fields between braces.
-/

namespace ContentAddressed.Text

def quoteChar (c : Char) : List Char :=
  if c = '"' then ['\\', '"']
  else if c = '\\' then ['\\', '\\']
  else if c = '\n' then ['\\', 'n']
  else if c = '\r' then ['\\', 'r']
  else if c = '\t' then ['\\', 't']
  else if c = '\x00' then ['\\', '0']
  else if c.toNat < 32 ∨ c.toNat = 127 then
    ['\\', 'u', '\x7b'] ++
      (if c.toNat < 16 then [Hex.digit c.toNat] else Hex.ofByte c.toUInt8) ++ ['\x7d']
  else [c]

def quote (s : String) : String :=
  String.ofList ('"' :: (s.toList.flatMap quoteChar ++ ['"']))

def fields (parts : List (String × String)) : String :=
  ", ".intercalate (parts.map fun p => p.1 ++ ": " ++ p.2)

/-- A record with all its fields, such as `Keychain { key_count: 2 }`. -/
def record (name : String) (parts : List (String × String)) : String :=
  name ++ " \x7b " ++ fields parts ++ " \x7d"

def partialRecord (name : String) (parts : List (String × String)) : String :=
  name ++ " \x7b " ++ fields parts ++ ", .. \x7d"

def optional (value : Option String) : String :=
  match value with
  | some v => "Some(" ++ v ++ ")"
  | none => "None"

def flag (b : Bool) : String := if b then "true" else "false"

end ContentAddressed.Text
