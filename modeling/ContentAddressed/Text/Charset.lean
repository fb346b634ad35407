import ContentAddressed.Text.Ascii
import ContentAddressed.Text.Blank
import ContentAddressed.Text.Utf16

/-!
# Charsets

Labels by which texts say how their bytes are to be read. The charsets of Unicode are known here,
and the one that ASCII and Latin 1 are read in.
-/

namespace ContentAddressed.Text

inductive Charset where
  | utf8
  | utf16 (bigEndian : Bool)
  | windows1252
  deriving DecidableEq, Repr

namespace Charset

def all : List Charset := [utf8, utf16 false, utf16 true, windows1252]

def labels : Charset → List String
  | utf8 => ["utf-8", "utf8", "unicode-1-1-utf-8", "unicode11utf8", "unicode20utf8",
    "x-unicode20utf8"]
  | utf16 false => ["utf-16le", "utf-16", "unicode", "ucs-2", "iso-10646-ucs-2", "csunicode",
    "unicodefeff"]
  | utf16 true => ["utf-16be", "unicodefffe"]
  | windows1252 => ["windows-1252", "cp1252", "x-cp1252", "ascii", "us-ascii", "ansi_x3.4-1968",
    "latin1", "l1", "csisolatin1", "iso-8859-1", "iso8859-1", "iso88591", "iso_8859-1",
    "iso_8859-1:1987", "iso-ir-100", "ibm819", "cp819"]

/-- The charset with a label, in any case and with blanks around it. -/
def ofLabel? (label : String) : Option Charset :=
  all.find? fun c => c.labels.contains (Ascii.lowercase (Text.trim label))

def windowsTable : List Nat :=
  [0x20AC, 0x81, 0x201A, 0x0192, 0x201E, 0x2026, 0x2020, 0x2021,
    0x02C6, 0x2030, 0x0160, 0x2039, 0x0152, 0x8D, 0x017D, 0x8F,
    0x90, 0x2018, 0x2019, 0x201C, 0x201D, 0x2022, 0x2013, 0x2014,
    0x02DC, 0x2122, 0x0161, 0x203A, 0x0153, 0x9D, 0x017E, 0x0178]

def ofWindows (b : UInt8) : Char :=
  if 0x80 ≤ b then Char.ofNat (windowsTable.getD (b.toNat - 0x80) b.toNat) else Char.ofNat b.toNat

def decode : Charset → Bytes → String
  | utf8, bs => Utf8.decodeLenient bs
  | utf16 bigEndian, bs => Utf16.decodeLenient bigEndian bs
  | windows1252, bs => String.ofList (bs.map ofWindows)

end Charset

end ContentAddressed.Text
