import ContentAddressed.Medium.Disk
import ContentAddressed.Medium.Faulty
import ContentAddressed.Medium.Memory
import ContentAddressed.Medium.Remote

/-! # One type for every kind of medium, so that chains can mix them -/

namespace ContentAddressed

inductive Backing where
  | memory (m : Memory)
  | disk (m : Disk)
  | remote (m : Remote)
  | faulty (m : Faulty)

namespace Backing

def put (b : Backing) (name : String) (bs : Bytes) : Outcome Backing Unit :=
  match b with
  | memory m => (Medium.put m name bs).map id memory
  | disk m => (Medium.put m name bs).map id disk
  | remote m => (Medium.put m name bs).map id remote
  | faulty m => (Medium.put m name bs).map id faulty

def get (b : Backing) (name : String) : Outcome Backing StoredBytes :=
  match b with
  | memory m => (Medium.get m name).map id memory
  | disk m => (Medium.get m name).map id disk
  | remote m => (Medium.get m name).map id remote
  | faulty m => (Medium.get m name).map id faulty

def list (b : Backing) : Except Error (Option (List String)) :=
  match b with
  | memory m => Medium.list m
  | disk m => Medium.list m
  | remote m => Medium.list m
  | faulty m => Medium.list m

def kind (b : Backing) : String :=
  match b with
  | memory m => Medium.kind m
  | disk m => Medium.kind m
  | remote m => Medium.kind m
  | faulty m => Medium.kind m

instance : Medium Backing where
  put := put
  get := get
  list := list
  kind := kind

end Backing

end ContentAddressed
