import ContentAddressed.Http.Percent
import ContentAddressed.Text.Ascii
import ContentAddressed.Text.Blank

/-!
# Addresses as they are shown

A parsed address is shown with its scheme and host in lower case, without the number that the scheme
implies, and with a path free of `.` and `..`.
-/

namespace ContentAddressed.Http.Url

/-- The characters in front of the first one that satisfies a test, and the others. -/
def span (stop : Char → Bool) (cs : List Char) : List Char × List Char :=
  (cs.takeWhile fun c => !stop c, cs.dropWhile fun c => !stop c)

/-- Characters of a path or query that are shown by their bytes. -/
def isHidden (c : Char) : Bool :=
  c.toNat ≤ 32 || 127 ≤ c.toNat || c == '"' || c == '<' || c == '>' || c == '\x60' ||
    c == '\x7b' || c == '\x7d'

def escape (cs : List Char) : List Char :=
  cs.flatMap fun c => if isHidden c then (Utf8.encode c.toString).flatMap percentByte else [c]

/-- Whether a segment stands for its own directory, or for the one above. -/
def isDot (segment : List Char) : Bool :=
  let s := Ascii.lowercase (String.ofList segment)
  s == "." || s == "%2e"

def isDotDot (segment : List Char) : Bool :=
  let s := Ascii.lowercase (String.ofList segment)
  s == ".." || s == ".%2e" || s == "%2e." || s == "%2e%2e"

/-- Segments without the ones that are dots; `done` holds those kept, last first. -/
def resolve : (segments done : List (List Char)) → List (List Char)
  | [], done => done.reverse
  | [s], done =>
    if isDot s then ([] :: done).reverse
    else if isDotDot s then ([] :: done.tail).reverse
    else (s :: done).reverse
  | s :: rest, done =>
    if isDot s then resolve rest done
    else if isDotDot s then resolve rest done.tail
    else resolve rest (s :: done)

def showPath (path : List Char) : List Char :=
  let slashes := path.map fun c => if c = '\\' then '/' else c
  (resolve ((Text.splitList '/' slashes).drop 1) []).flatMap fun s => '/' :: escape s

/-- The host without a login, and without a number after it that the scheme implies. -/
def showAuthority (scheme : String) (authority : List Char) : List Char :=
  let host := ((Text.splitList '@' authority).getLast?.getD []).map Ascii.lower
  let standard := if scheme == "https" then [':', '4', '4', '3'] else [':', '8', '0']
  if host.drop (host.length - standard.length) = standard then
    host.take (host.length - standard.length)
  else host

/-- The shown form of an address with a host; other texts are shown as they are. -/
def display (address : String) : String :=
  let (scheme, rest) := span (· == ':') address.toList
  match rest with
  | ':' :: '/' :: '/' :: rest =>
    let scheme := Ascii.lowercase (String.ofList scheme)
    let (authority, rest) := span (fun c => c == '/' || c == '\\' || c == '?' || c == '#') rest
    let (path, rest) := span (fun c => c == '?' || c == '#') rest
    let path := if path.isEmpty then ['/'] else path
    scheme ++ "://" ++
      String.ofList (showAuthority scheme authority ++ (showPath path ++ escape rest))
  | _ => address

end ContentAddressed.Http.Url
