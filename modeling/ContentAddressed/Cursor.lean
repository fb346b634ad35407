import ContentAddressed.Error

/-!
# Reading frames

A cursor stands between the bytes that were read and the bytes ahead. Every read succeeds in full or
fails without effect.
-/

namespace ContentAddressed

structure Cursor where
  /-- How many bytes were read. -/
  offset : Nat
  rest : Bytes
  deriving DecidableEq, Repr

abbrev Reader := StateT Cursor (Except Error)

namespace Reader

def fail {α : Type} (cause : FormatError) : Reader α := throw (.format cause)

def position : Reader Nat := do return (← get).offset

def take (n : Nat) (what : String) : Reader Bytes := fun c =>
  let taken := c.rest.take n
  if taken.length = n then .ok (taken, ⟨c.offset + n, c.rest.drop n⟩)
  else .error (.format (.underflow what n c.offset c.rest.length))

def magic (expected : Bytes) (what : String) : Reader Unit := do
  let found ← take expected.length what
  if found = expected then pure () else fail (.badMagic what found)

def number (width : Nat) (what : String) : Reader Nat := do
  return Bytes.fromLittleEndian (← take width what)

def text (n : Nat) (what : String) : Reader String := do
  let bs ← take n what
  if bs.all Ascii.isPrintable then return Ascii.decode bs else fail (.notPrintable what)

def runOn {α : Type} (r : Reader α) (buffer : Bytes) : Except Error (α × Cursor) :=
  r.run ⟨0, buffer⟩

end Reader

end ContentAddressed
