import ContentAddressed.FileTree
import ContentAddressed.Text.Json
import ContentAddressed.Text.Utf8
import ContentAddressed.Walk.Result

/-! # Reports of commands -/

namespace ContentAddressed.Report

def print (report : Json) : Bytes := Utf8.encode (report.pretty 0 ++ "\n")

/-- A stored file: the root, and the link that gives the file back. -/
def put (t : FileTree) (data : Bytes) : Json :=
  .object [("root", .text t.root.target), ("link", .text (Base64.common.encode t.root.frame)),
    ("blocks", .number t.size), ("bytes", .number data.length)]

/-- What a walk from a root found, and how many bytes were written if any were asked for. -/
def fetch (root : Link) (r : WalkResult) (written : Option Bytes) : Json :=
  .object ([("root", .text root.target), ("plaintext", .list (r.blockNames.map Json.text)),
    ("opaque", .list (r.lockedNames.map Json.text))] ++
    (written.map fun bs => ("assembled_bytes", Json.number bs.length)).toList)

def lines (names : List String) : Bytes := names.flatMap fun n => Utf8.encode (n ++ "\n")

end ContentAddressed.Report
