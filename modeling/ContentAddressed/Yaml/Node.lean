import ContentAddressed.Yaml.Token

/-!
# YAML documents

The tree of a stream with at most one document. Aliases stay in the tree as references to nodes that
carry an anchor.
-/

namespace ContentAddressed.Yaml

inductive Node where
  | scalar (tag : Option String) (style : Style) (text : String)
  | sequence (items : List Node)
  | mapping (entries : List (Node × Node))
  | alias (anchor : Nat)

def Node.empty : Node := .scalar none .plain ""

structure Document where
  root : Node
  /-- The nodes with an anchor, by number, the last one first. -/
  anchored : List (Nat × Node) := []

def Document.resolve (d : Document) (n : Node) : Node :=
  match n with
  | .alias anchor => (d.anchored.lookup anchor).getD n
  | n => n

namespace Node

/-- The tokens ahead and what is known of the document. -/
structure Composition where
  tokens : List Token
  /-- The anchors that were met, by name; a number is how many other names came before. -/
  anchors : List (String × Nat) := []
  anchored : List (Nat × Node) := []
  handles : List (List Char × List Char) := Tag.standardHandles

/-- A reader of nodes; it answers nothing where the tokens form none. -/
abbrev Composer := StateT Composition Option

namespace Composer

def peek : Composer (Option Token) := return (← get).tokens.head?

def skip : Composer Unit := modify fun c => { c with tokens := c.tokens.tail }

def at? (ts : List Token) : Composer Bool := return (← peek).any ts.contains

def accept (t : Token) : Composer Bool := do
  let found ← at? [t]
  if found then skip
  return found

def expect (t : Token) : Composer Unit := do
  if !(← accept t) then failure

def number (name : String) : Composer Nat :=
  modifyGet fun c =>
    let others := c.anchors.filter fun a => a.1 != name
    (c.anchors.length, { c with anchors := (name, c.anchors.length) :: others })

/-- The anchor and the tag in front of a node, in either order. -/
def properties : Composer (Option Nat × Option String) := do
  let anchor ← anchor?
  let tag ← tag?
  let anchor ← if anchor.isSome then pure anchor else anchor?
  return (anchor, tag)
where
  anchor? : Composer (Option Nat) := do
    match ← peek with
    | some (.anchor name) => skip; return some (← number name)
    | _ => return none
  tag? : Composer (Option String) := do
    match ← peek with
    | some (.tag t) =>
      skip
      return some (← t.resolve? (← get).handles)
    | _ => return none

def record (anchor : Option Nat) (n : Node) : Composer Node := do
  match anchor with
  | some k => modify fun c => { c with anchored := (k, n) :: c.anchored }
  | none => pure ()
  return n

end Composer

open Composer

inductive Place where
  /-- Inside a flow collection. -/
  | flow
  | block
  /-- Beside a key, where a sequence needs no indentation. -/
  | beside
  deriving DecidableEq

mutual

def compose (fuel : Nat) (place : Place) : Composer Node :=
  match fuel with
  | 0 => failure
  | fuel + 1 => do
    if let some (.alias name) ← peek then
      skip
      return .alias (← (← get).anchors.lookup name)
    let (anchor, tag) ← properties
    let inBlock := place != .flow
    match ← peek with
    | some (.scalar style text) => skip; record anchor (.scalar tag style text)
    | some .flowSequence => skip; record anchor (.sequence (← flowItems fuel true))
    | some .flowMapping => skip; record anchor (.mapping (← flowEntries fuel true))
    | token =>
      if place == .beside && token == some .blockEntry then
        record anchor (.sequence (← besideItems fuel))
      else if inBlock && token == some .blockSequence then
        skip; record anchor (.sequence (← blockItems fuel))
      else if inBlock && token == some .blockMapping then
        skip; record anchor (.mapping (← blockEntries fuel))
      else if anchor.isSome || tag.isSome then record anchor (.scalar tag .plain "")
      else failure

/-- A node, or the empty one in front of one of the given tokens. -/
def composeUnless (fuel : Nat) (place : Place) (stops : List Token) : Composer Node :=
  match fuel with
  | 0 => failure
  | fuel + 1 => do if ← at? stops then return empty else compose fuel place

def blockItems (fuel : Nat) : Composer (List Node) :=
  match fuel with
  | 0 => failure
  | fuel + 1 => do
    if ← accept .blockEntry then
      let item ← composeUnless fuel .block [.blockEntry, .blockEnd]
      return item :: (← blockItems fuel)
    else
      expect .blockEnd
      return []

/-- The items of a sequence that has the indentation of the mapping around it. -/
def besideItems (fuel : Nat) : Composer (List Node) :=
  match fuel with
  | 0 => failure
  | fuel + 1 => do
    if ← accept .blockEntry then
      let item ← composeUnless fuel .block [.blockEntry, .key, .value, .blockEnd]
      return item :: (← besideItems fuel)
    else return []

def blockEntries (fuel : Nat) : Composer (List (Node × Node)) :=
  match fuel with
  | 0 => failure
  | fuel + 1 => do
    if ← accept .key then
      let stops := [.key, .value, .blockEnd]
      let key ← composeUnless fuel .beside stops
      let value ←
        if ← accept .value then composeUnless fuel .beside stops else pure empty
      return (key, value) :: (← blockEntries fuel)
    else
      expect .blockEnd
      return []

def flowItems (fuel : Nat) (first : Bool) : Composer (List Node) :=
  match fuel with
  | 0 => failure
  | fuel + 1 => do
    if ← accept .flowSequenceEnd then return []
    else
      if !first then expect .flowEntry
      if ← accept .flowSequenceEnd then return []
      else
        let item ← if ← accept .key then flowPair fuel else compose fuel .flow
        return item :: (← flowItems fuel false)

/-- A mapping of one entry inside a flow sequence. Where its key is empty, the token after it is
lost. -/
def flowPair (fuel : Nat) : Composer Node :=
  match fuel with
  | 0 => failure
  | fuel + 1 => do
    let key ←
      if ← at? [.value, .flowEntry, .flowSequenceEnd] then do
        skip
        pure empty
      else compose fuel .flow
    let value ←
      if ← accept .value then composeUnless fuel .flow [.flowEntry, .flowSequenceEnd]
      else pure empty
    return .mapping [(key, value)]

def flowEntries (fuel : Nat) (first : Bool) : Composer (List (Node × Node)) :=
  match fuel with
  | 0 => failure
  | fuel + 1 => do
    if ← accept .flowMappingEnd then return []
    else
      if !first then expect .flowEntry
      if ← accept .flowMappingEnd then return []
      else
        let entry ←
          if ← accept .key then do
            let key ← composeUnless fuel .flow [.value, .flowEntry, .flowMappingEnd]
            let value ←
              if ← accept .value then composeUnless fuel .flow [.flowEntry, .flowMappingEnd]
              else pure empty
            pure (key, value)
          else pure (← compose fuel .flow, empty)
        return entry :: (← flowEntries fuel false)

end

/-- Directives: at most one version, which is known, and each handle at most once. -/
def directives : (fuel : Nat) → (versioned : Bool) → (declared : List (List Char)) →
    Composer Unit
  | 0, _, _ => failure
  | fuel + 1, versioned, declared => do
    match ← peek with
    | some (.version major minor) =>
      if versioned || major != 1 || (minor != 1 && minor != 2) then failure
      skip
      directives fuel true declared
    | some (.tagHandle handle lead) =>
      if declared.contains handle then failure
      skip
      modify fun c => { c with handles := (handle, lead) :: c.handles }
      directives fuel versioned (handle :: declared)
    | _ => return

/-- The only document of a stream; a stream without one has an empty document. -/
def single (fuel : Nat) : Composer Node := do
  let marks := [Token.documentStart, .documentEnd]
  match ← peek with
  | none => return empty
  | some (.version _ _) | some (.tagHandle _ _) | some .documentStart =>
    directives fuel false []
    expect .documentStart
    let root ←
      match ← peek with
      | none | some (.version _ _) | some (.tagHandle _ _) => pure empty
      | some _ => composeUnless fuel .block marks
    finishStream fuel
    return root
  | some _ =>
    let root ← compose fuel .block
    finishStream fuel
    return root
where
  finishStream : Nat → Composer Unit
    | 0 => failure
    | fuel + 1 => do
      if ← accept .documentEnd then finishStream fuel
      else if (← peek).isSome then failure

end Node

def Document.parse? (text : String) : Option Document := do
  let tokens ← Token.scan? text
  let (root, c) ← (Node.single (2 * tokens.length + 8)).run { tokens := tokens }
  return ⟨root, c.anchored⟩

end ContentAddressed.Yaml
