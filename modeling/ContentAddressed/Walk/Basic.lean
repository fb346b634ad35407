import ContentAddressed.Block.Opening
import ContentAddressed.Key.Keychain
import ContentAddressed.Walk.Result

/-!
# Walks along links

A walk starts at one link, reads what the link names, and goes on with the links of each block that
it can open, depth first and in order. Bytes are checked against the fingerprint that names them
before anything else is done with them. Each name is read at most once.
-/

namespace ContentAddressed

/-- Where a walk reads, and how far and with which keys it goes. -/
structure Walker (σ : Type) where
  retrieve : String → σ → Outcome σ StoredBytes
  keys : Option Keychain := none
  /-- How many links the shortest way to a name may have. -/
  limit : Option Nat := none

/-- A name that was reached: the length of the shortest way so far, and what was found. -/
structure Visit where
  name : String
  depth : Nat
  found : Found

/-- The links still to follow, the next one first; the names met only beyond the limit; and the
names reached, the latest first. -/
structure WalkState where
  pending : List (Link × Nat)
  tooDeep : List String := []
  visits : List Visit := []

/-- The block that the keychain's key for the target of a link opens. -/
def Keychain.openLink? (k : Keychain) (l : Link) (bs : Bytes) : Option Block := do
  let fp ← l.fingerprint?
  let key ← k.find? fp
  let keyed ← (l.withKey key).toOption
  (keyed.decrypt bs).toOption

/-- The block that bytes are or enclose: read as they are, else opened with the key of the link,
else with that of the keychain. -/
def Link.openBytes? (keys : Option Keychain) (l : Link) (bs : Bytes) : Option Block :=
  match Block.parse l.digestAlgorithm bs with
  | .ok b => some b
  | .error _ =>
    let own := if l.hasKey then (l.decrypt bs).toOption else none
    match own with
    | some b => some b
    | none => keys.bind fun k => k.openLink? l bs

/-- Whether bytes are what a link may name: a target that is a fingerprint has to match them. -/
def Link.admits (l : Link) (bs : Bytes) : Bool :=
  match l.fingerprint? with
  | some fp => fp.isOf bs
  | none => true

/-- The links of a block as they enter the stack; closed bytes have none. -/
def Found.children (f : Found) (depth : Nat) : List (Link × Nat) := f.links.map fun l => (l, depth)

namespace WalkState

/-- The state of a walk that has not left its first link. -/
def start (root : Link) : WalkState := { pending := [(root, 0)] }

def visit? (s : WalkState) (name : String) : Option Visit := s.visits.find? fun v => v.name == name

def shorten (s : WalkState) (name : String) (depth : Nat) : WalkState :=
  { s with visits := s.visits.map fun v => if v.name = name then { v with depth := depth } else v }

def result (s : WalkState) : WalkResult := ⟨s.visits.reverse.map fun v => (v.name, v.found)⟩

end WalkState

namespace Walker

variable {σ : Type}

def isBeyond (w : Walker σ) (depth : Nat) : Bool :=
  match w.limit with
  | some n => n < depth
  | none => false

/-- Read what a link names: bytes that it admits, and what they turn out to be. -/
def read (w : Walker σ) (l : Link) (store : σ) : Outcome σ Found :=
  match w.retrieve l.target store with
  | (.error e, store) => (.error e, store)
  | (.ok v, store) =>
    if l.admits v.bytes then
      match l.openBytes? w.keys v.bytes with
      | some b => (.ok (.block b), store)
      | none => (.ok (.locked v), store)
    else (.error (.integrity l.target), store)

def enter (w : Walker σ) (l : Link) (depth : Nat) (s : WalkState) (store : σ) :
    Outcome σ WalkState :=
  match w.read l store with
  | (.error e, store) => (.error e, store)
  | (.ok f, store) =>
    (.ok { s with pending := f.children (depth + 1) ++ s.pending,
                  visits := ⟨l.target, depth, f⟩ :: s.visits }, store)

/-- Follow one link. A name that was reached before is not read again; if the way is shorter now and
there is a limit, its links are followed once more. -/
def follow (w : Walker σ) (l : Link) (depth : Nat) (s : WalkState) (store : σ) :
    Outcome σ WalkState :=
  if w.isBeyond depth then (.ok { s with tooDeep := l.target :: s.tooDeep }, store)
  else
    match s.visit? l.target with
    | none => w.enter l depth s store
    | some v =>
      if w.limit.isNone || v.depth ≤ depth then (.ok s, store)
      else
        let s := s.shorten l.target depth
        (.ok { s with pending := v.found.children (depth + 1) ++ s.pending }, store)

/-- The outcome once no link is left: a name beyond the limit has to be reached another way. -/
def finish (w : Walker σ) (s : WalkState) : Except Error WalkResult :=
  match w.limit with
  | some n =>
    if s.tooDeep.all fun name => s.result.contains name then .ok s.result
    else .error (.depthExceeded n)
  | none => .ok s.result

/-- A state and a store, and what they are after the next link. -/
def Next (w : Walker σ) (after before : WalkState × σ) : Prop :=
  ∃ l depth rest, before.1.pending = (l, depth) :: rest ∧
    w.follow l depth { before.1 with pending := rest } before.2 = (.ok after.1, after.2)

/-- Only so many links are followed before none is left or one fails. -/
def Halts (w : Walker σ) (s : WalkState) (store : σ) : Prop := Acc w.Next (s, store)

instance (w : Walker σ) : WellFoundedRelation {p // Acc w.Next p} := Acc.wfRel

def run (w : Walker σ) (s : WalkState) (store : σ) (h : w.Halts s store) :
    Outcome σ WalkResult :=
  match hs : s.pending with
  | [] => (w.finish s, store)
  | (l, depth) :: rest =>
    match hl : w.follow l depth { s with pending := rest } store with
    | (.error e, store') => (.error e, store')
    | (.ok s', store') => w.run s' store' (h.inv ⟨l, depth, rest, hs, hl⟩)
termination_by (⟨(s, store), h⟩ : {p // Acc w.Next p})
decreasing_by exact ⟨l, depth, rest, hs, hl⟩

def fetch (w : Walker σ) (root : Link) (store : σ) (h : w.Halts (.start root) store) :
    Outcome σ WalkResult :=
  w.run (.start root) store h

end Walker

end ContentAddressed
