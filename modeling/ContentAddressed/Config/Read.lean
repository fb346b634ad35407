import ContentAddressed.Config.Basic
import ContentAddressed.Yaml.Node

/-!
# Reading settings

The settings that a YAML document states. What it leaves out has its standard value, what it adds is
ignored, and no setting is stated twice.
-/

namespace ContentAddressed

open Yaml (Document Node)

namespace Config

def isNull (text : String) : Bool := ["null", "Null", "NULL", "~"].contains text

def text? (d : Document) (n : Node) : Option String :=
  match d.resolve n with
  | .scalar _ _ text => some text
  | _ => none

/-- A value that may be left out or be null; text in quotes is never null. -/
def nullable? {α : Type} (read : Document → Node → Option α) (d : Document) (n : Node) :
    Option (Option α) :=
  match d.resolve n with
  | .scalar (some "tag:yaml.org,2002:null") .plain text => if isNull text then some none else none
  | .scalar (some _) .plain _ => (read d n).map some
  | .scalar none .plain text =>
    if text.isEmpty || isNull text then some none else (read d n).map some
  | _ => (read d n).map some

def digits? (base : Nat) (cs : List Char) : Option Nat :=
  if cs.isEmpty then none
  else cs.foldlM (fun n c =>
    (Hex.value? c).bind fun v => if v < base then some (n * base + v) else none) 0

/-- A number without a sign or with a plus sign: hexadecimal, octal, binary, or decimal without
leading zeros. -/
def numeral? (text : String) : Option Nat :=
  let cs := text.toList
  let cs := if cs.head? = some '+' then cs.tail else cs
  match cs with
  | '0' :: 'x' :: rest => digits? 16 rest
  | '0' :: 'o' :: rest => digits? 8 rest
  | '0' :: 'b' :: rest => digits? 2 rest
  | '0' :: _ :: _ => none
  | cs => digits? 10 cs

/-- A number of at most `bits` bits, which is not written in quotes. -/
def number? (bits : Nat) (d : Document) (n : Node) : Option Nat := do
  let text ← match d.resolve n with
    | .scalar _ .plain text => some text
    | .scalar (some "tag:yaml.org,2002:int") .literal text => some text
    | _ => none
  let value ← numeral? text
  if value < 1 <<< bits then some value else none

/-- The entries of a section by name. The names given stand at most once; a section without text is
empty. -/
def section? (names : List String) (d : Document) (n : Node) : Option (List (String × Node)) := do
  let entries ← match d.resolve n with
    | .mapping entries => entries.mapM fun e => (text? d e.1).map fun key => (key, e.2)
    | .scalar _ .plain "" => some []
    | _ => none
  let keys := entries.map Prod.fst
  if names.all fun name => keys.count name ≤ 1 then some entries else none

def setting? {α : Type} (entries : List (String × Node)) (name : String)
    (read : Node → Option α) (standard : α) : Option α :=
  match entries.lookup name with
  | some n => read n
  | none => some standard

def digest? (d : Document) (n : Node) : Option DigestAlgorithm :=
  (text? d n).bind DigestAlgorithm.ofName?

def secret? (d : Document) (n : Node) : Option Secret := (text? d n).map Secret.mk

def crypto? (d : Document) (n : Node) : Option CryptoConfig := do
  let entries ← section? ["digest", "cipher", "key_bits"] d n
  let standard : CryptoConfig := {}
  return {
    digest := ← setting? entries "digest" (digest? d) standard.digest
    cipher := ← setting? entries "cipher" (text? d) standard.cipher
    keyBits := ← setting? entries "key_bits" (number? 16 d) standard.keyBits }

def remote? (d : Document) (n : Node) : Option RemoteConfig := do
  let entries ← section? ["download_base", "upload_url", "authenticator", "timeout_secs"] d n
  return {
    downloadBase := ← text? d (← entries.lookup "download_base")
    uploadUrl := ← text? d (← entries.lookup "upload_url")
    authenticator := ← setting? entries "authenticator" (secret? d) {}
    timeoutSecs := ← setting? entries "timeout_secs" (number? 64 d) 30 }

def store? (d : Document) (n : Node) : Option StoreConfig := do
  let entries ← section? ["directory", "mmap_threshold", "block_size", "remote"] d n
  let standard : StoreConfig := {}
  return {
    directory := ← setting? entries "directory" (nullable? text? d) none
    mmapThreshold := ← setting? entries "mmap_threshold" (number? 64 d) standard.mmapThreshold
    blockSize := ← setting? entries "block_size" (number? 64 d) standard.blockSize
    remote := ← setting? entries "remote" (nullable? remote? d) none }

def server? (d : Document) (n : Node) : Option ServerConfig := do
  let entries ← section? ["bind", "directory", "authenticator", "max_upload_bytes"] d n
  let standard : ServerConfig := {}
  return {
    bind := ← setting? entries "bind" (text? d) standard.bind
    directory := ← setting? entries "directory" (nullable? text? d) none
    authenticator := ← setting? entries "authenticator" (secret? d) {}
    maxUploadBytes :=
      ← setting? entries "max_upload_bytes" (number? 64 d) standard.maxUploadBytes }

def ofDocument? (d : Document) : Option Config := do
  let entries ← section? ["crypto", "store", "server"] d d.root
  return {
    crypto := ← setting? entries "crypto" (crypto? d) {}
    store := ← setting? entries "store" (store? d) {}
    server := ← setting? entries "server" (server? d) {} }

/-- The settings in a text. The size of keys is looked at last. -/
def read (text : String) : Except Error Config :=
  match (Document.parse? text).bind ofDocument? with
  | none => .error (.config .invalidYaml)
  | some c => do
    c.crypto.validate
    return c

end Config

end ContentAddressed
