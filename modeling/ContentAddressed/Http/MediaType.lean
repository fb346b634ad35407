import ContentAddressed.Text.Ascii

/-!
# Media types

A type, a subtype and parameters, as a content type header states them. Names are compared without
regard to case; values are kept as they are.
-/

namespace ContentAddressed.Http

structure MediaType where
  kind : String
  subkind : String
  parameters : List (String × String) := []
  deriving DecidableEq, Repr

namespace MediaType

def isTokenChar (c : Char) : Bool :=
  c.isAlphanum || "!#$%&'*+-.^_\x60|~".toList.contains c

/-- The token at the front, which is not empty, and what follows. -/
def token? (cs : List Char) : Option (List Char × List Char) :=
  let t := cs.takeWhile isTokenChar
  if t.isEmpty then none else some (t, cs.drop t.length)

/-- The value of a parameter, and what follows; quotes may hold anything but control characters. -/
def value? (cs : List Char) : Option (List Char × List Char) :=
  match cs with
  | '"' :: rest =>
    let v := rest.takeWhile fun c => c != '"' && 32 ≤ c.toNat && c.toNat != 127
    match rest.drop v.length with
    | '"' :: after =>
      if v.isEmpty then none else some (v, after.dropWhile (· == ' '))
    | _ => none
  | _ =>
    let v := cs.takeWhile isTokenChar
    let after := cs.drop v.length
    if v.isEmpty ∧ ¬ after.isEmpty then none else some (v, after)

def lower (cs : List Char) : String := String.ofList (cs.map Ascii.lower)

def parametersFrom : (fuel : Nat) → List Char → Option (List (String × String))
  | 0, _ => none
  | _ + 1, [] => some []
  | fuel + 1, ' ' :: cs => parametersFrom fuel cs
  | fuel + 1, cs => do
    let (name, after) ← token? cs
    match after with
    | '=' :: after =>
      let (value, after) ← value? after
      let rest ← match after with
        | [] => some []
        | ';' :: after => parametersFrom fuel after
        | _ => none
      return (lower name, String.ofList value) :: rest
    | _ => none

/-- Read a header value, which has printable characters only. -/
def parse? (text : String) : Option MediaType := do
  let (kind, after) ← token? (if Ascii.printable text then text.toList else [])
  match after with
  | '/' :: after =>
    let (subkind, after) ← token? after
    let parameters ← match after with
      | [] => some []
      | ';' :: after => parametersFrom (after.length + 1) after
      | _ => none
    return ⟨lower kind, lower subkind, parameters⟩
  | _ => none

def parameter? (t : MediaType) (name : String) : Option String := t.parameters.lookup name

/-- The boundary between the parts of a form, if the type is that of a form. -/
def formBoundary? (t : MediaType) : Option String :=
  if t.kind = "multipart" ∧ t.subkind = "form-data" then t.parameter? "boundary" else none

end MediaType

end ContentAddressed.Http
