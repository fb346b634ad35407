import ContentAddressed.Command.Basic

/-!
# Command lines

The arguments of the program: options for every command, the name of a command, and its own options
and value. They are read from left to right, up to the first one that decides the outcome.
-/

namespace ContentAddressed

inductive OptionKind where
  /-- Nothing; it may stand once. -/
  | flag
  /-- Nothing; it may be repeated. -/
  | tally
  /-- The path of a file or directory, which is not empty. -/
  | path
  | text
  | number
  deriving DecidableEq, Repr

namespace OptionKind

def takesValue : OptionKind → Bool
  | flag | tally => false
  | _ => true

/-- Digits, with a plus sign or without, of a number below 2^64. -/
def number? (text : String) : Option Nat :=
  let cs := text.toList
  (Config.digits? 10 (if cs.head? = some '+' then cs.tail else cs)).bind fun n =>
    if n < 1 <<< 64 then some n else none

def accepts (k : OptionKind) (value : String) : Bool :=
  match k with
  | path => !value.isEmpty
  | number => (number? value).isSome
  | _ => true

end OptionKind

/-- The options and words that one part of a command line may have. -/
structure Grammar where
  options : List (String × OptionKind)
  /-- The value that stands without an option. -/
  operand : Option (String × OptionKind) := none
  /-- The words that start the next part. -/
  commands : List String := []
  /-- Whether the version can be asked for. -/
  hasVersion : Bool := false

/-- Options by name with their values, the last one first. -/
abbrev Values := List (String × String)

inductive PartEnd where
  | finished (values : Values)
  | command (values : Values) (name : String) (rest : List String)
  | version
  | help
  | refused
  deriving DecidableEq, Repr

namespace Grammar

/-- The values with one more; what may stand once is refused the second time. -/
def record (values : Values) (name : String) (kind : OptionKind) (value : String) :
    Option Values :=
  if !kind.accepts value || (kind != .tally && (values.lookup name).isSome) then none
  else some ((name, value) :: values)

/-- Whether an argument looks like an option. A single hyphen does not. -/
def looksLikeOption (argument : String) : Bool :=
  argument.startsWith "-" && argument != "-"

def letters (g : Grammar) (values : Values) : List Char → Values ⊕ PartEnd
  | [] => .inl values
  | 'h' :: _ => .inr .help
  | 'v' :: rest => letters g (("verbose", "") :: values) rest
  | 'V' :: _ => .inr (if g.hasVersion then .version else .refused)
  | _ => .inr .refused

/-- What an option with a long name does: it ends the part, has its value, or waits for it. -/
inductive Effect where
  | ends (e : PartEnd)
  | recorded (values : Values)
  | waits (name : String) (kind : OptionKind)

/-- An option with a long name, and the value that is attached to it. -/
def longOption (g : Grammar) (values : Values) (name : String) (attached : Option String) :
    Effect :=
  let recorded := fun r => match r with
    | some values => Effect.recorded values
    | none => Effect.ends .refused
  match g.options.lookup name, attached with
  | some kind, some value =>
    if kind.takesValue then recorded (record values name kind value) else .ends .refused
  | some kind, none =>
    if kind.takesValue then .waits name kind else recorded (record values name kind "")
  | none, none =>
    if name = "help" then .ends .help
    else if name = "version" ∧ g.hasVersion then .ends .version
    else .ends .refused
  | none, some _ => .ends .refused

/-- The parts of an argument around its first equals sign. -/
def cutAttached (argument : String) : String × Option String :=
  match Text.cutList? '=' argument.toList with
  | some (name, value) => (String.ofList name, some (String.ofList value))
  | none => (argument, none)

/-- Read a part from here, where an option may wait for its value; after `--` all arguments are
operands. -/
def readFrom (g : Grammar) (values : Values) (waiting : Option (String × OptionKind))
    (plain : Bool) : List String → PartEnd
  | [] => if waiting.isSome then .refused else .finished values
  | a :: rest =>
    let recorded := fun r => match r with
      | some values => readFrom g values none plain rest
      | none => .refused
    match plain, waiting with
    | false, some (name, kind) =>
      if looksLikeOption a then .refused else recorded (record values name kind a)
    | false, none =>
      if a = "help" ∧ ¬ g.commands.isEmpty then
        if rest.length ≤ 1 ∧ rest.all (("help" :: g.commands).contains) then .help else .refused
      else if g.commands.contains a then .command values a rest
      else if a = "--" then readFrom g values none true rest
      else if a.startsWith "--" then
        let (name, attached) := cutAttached (String.ofList (a.toList.drop 2))
        match g.longOption values name attached with
        | .ends e => e
        | .recorded values => readFrom g values none false rest
        | .waits name kind => readFrom g values (some (name, kind)) false rest
      else if looksLikeOption a then
        match g.letters values (a.toList.drop 1) with
        | .inl values => readFrom g values none false rest
        | .inr e => e
      else recorded (g.operand.bind fun o => record values o.1 o.2 a)
    | true, _ => recorded (g.operand.bind fun o => record values o.1 o.2 a)

def read (g : Grammar) (arguments : List String) : PartEnd := g.readFrom [] none false arguments

end Grammar

structure Invocation where
  config : Option String
  store : Option String
  command : Command
  deriving DecidableEq, Repr

inductive CommandLine where
  | invoke (i : Invocation)
  | version
  | help
  /-- The arguments cannot be used. -/
  | refused
  deriving DecidableEq, Repr

namespace CommandLine

/-- The options of every command; they may stand in front of its name and after it. -/
def sharedOptions : List (String × OptionKind) :=
  [("verbose", .tally), ("config", .path), ("store", .path)]

def program : Grammar :=
  { options := sharedOptions, commands := ["put", "get", "fetch", "list"], hasVersion := true }

def grammarOf (command : String) : Grammar :=
  let (options, operand) : List (String × OptionKind) × Option (String × OptionKind) :=
    if command = "put" then
      ([("encrypt", .flag), ("block-size", .number)], some ("FILE", .path))
    else if command = "get" then ([("out", .path)], some ("NAME", .text))
    else if command = "fetch" then
      ([("link", .text), ("name", .text), ("out", .path), ("max-depth", .number)], none)
    else ([("count", .flag)], none)
  { options := sharedOptions ++ options, operand := operand }

/-- The command with its values, if those that it needs are there. A walk starts from either a link
or a name. -/
def command? (name : String) (values : Values) : Option Command :=
  let value := fun n => values.lookup n
  let flag := fun n => (value n).isSome
  let number := fun n => (value n).bind OptionKind.number?
  if name = "put" then
    (value "FILE").map fun file => .put file (flag "encrypt") (number "block-size")
  else if name = "get" then (value "NAME").map fun block => .get block (value "out")
  else if name = "fetch" then
    if flag "link" = flag "name" then none
    else some (.fetch (value "link") (value "name") (value "out") (number "max-depth"))
  else some (.list (flag "count"))

/-- Read the arguments of the program. Of an option in front of the command and the same one after
it, the latter counts. -/
def read (arguments : List String) : CommandLine :=
  match program.read arguments with
  | .version => .version
  | .help => .help
  | .refused | .finished _ => .refused
  | .command shared name rest =>
    match (grammarOf name).read rest with
    | .version => .version
    | .help => .help
    | .refused | .command _ _ _ => .refused
    | .finished values =>
      let both := values ++ shared
      match command? name values with
      | some command => .invoke ⟨both.lookup "config", both.lookup "store", command⟩
      | none => .refused

end CommandLine

/-- What a run of the program leaves for those who started it. -/
structure Session where
  code : Nat
  printed : Bytes := []
  /-- Lines for people, such as error messages. -/
  notices : List String := []
  deriving DecidableEq, Repr

namespace Session

def versionLine : String := "cairn 0.1.0"

def usageLine : String := "usage: cairn [--config FILE] [--store DIR] put|get|fetch|list ..."

def ofRun : Except CommandError Ending → Session
  | .ok e => ⟨e.code, e.printed, e.notice.toList⟩
  | .error e => ⟨1, [], [e.message]⟩

def start (peer : Peer) (fillers : Fillers) (fs : FileSystem) (arguments : List String) :
    Session × FileSystem :=
  match CommandLine.read arguments with
  | .version => (⟨0, Utf8.encode (versionLine ++ "\n"), []⟩, fs)
  | .help => (⟨0, Utf8.encode (usageLine ++ "\n"), []⟩, fs)
  | .refused => (⟨2, [], []⟩, fs)
  | .invoke i =>
    match Command.loadConfig fs i.config i.store with
    | .error e => (ofRun (.error e), fs)
    | .ok config =>
      let (r, fs) := i.command.run peer fillers fs config
      (ofRun r, fs)

end Session

end ContentAddressed
