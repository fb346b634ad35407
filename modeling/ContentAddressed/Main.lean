import ContentAddressed.Command.Arguments

/-!
# The program

Brings the files that a command line is about into memory, runs it, and writes what it changed. No
peer is reached from here.
-/

open ContentAddressed

namespace ContentAddressed.Program

/-- Padding for any number of blocks, each with its own, from one random seed. -/
def fillersOf (seed : Bytes) : Fillers :=
  ⟨fun place => DigestAlgorithm.sha512.digest (seed ++ Bytes.littleEndian 8 place)⟩

def parent (path : String) : String :=
  String.ofList ((path.toList.reverse.dropWhile (· != '/')).drop 1).reverse

def loadFile (fs : FileSystem) (path : String) : IO FileSystem := do
  try
    let content ← IO.FS.readBinFile path
    return (fs.place (FilePath.ofText path) content.toList).toOption.getD fs
  catch _ => return fs

/-- The tree with a directory, if it is there, and the names of its entries. -/
def loadFolder (fs : FileSystem) (path : String) : IO (FileSystem × List String) := do
  try
    let entries ← ((← IO.currentDir) / path).readDir
    let fs := (fs.makeFolders (FilePath.ofText path)).toOption.getD fs
    return (fs, entries.toList.map fun e => e.fileName)
  catch _ => return (fs, [])

/-- The file that a command reads and the file that it writes. -/
def operands : Command → Option String × Option String
  | .put file _ _ => (some file, none)
  | .get _ out | .fetch _ _ out _ => (none, out)
  | .list _ => (none, none)

def directory? (fs : FileSystem) (i : Invocation) : Option String :=
  (Command.loadConfig fs i.config i.store).toOption.bind fun c => c.store.directory

def load (i : Invocation) : IO FileSystem := do
  let (input, out) := operands i.command
  let mut fs : FileSystem := {}
  for path in i.config.toList ++ input.toList do
    fs ← loadFile fs path
  for path in out.toList do
    fs := (← loadFolder fs (parent path)).1
  for path in (directory? fs i).toList do
    let (found, names) ← loadFolder fs path
    fs := found
    for name in names do
      fs ← loadFile fs (path ++ "/" ++ name)
  return fs

/-- Write a file of the tree if it is not the same as before. -/
def saveFile (before after : FileSystem) (path : String) : IO Unit := do
  let content := after.readAt path
  if content.toOption != (before.readAt path).toOption then
    match content with
    | .ok bs => IO.FS.writeBinFile path ⟨bs.toArray⟩
    | .error _ => return

def save (i : Invocation) (before after : FileSystem) : IO Unit := do
  for path in (operands i.command).2.toList do
    saveFile before after path
  for path in (directory? before i).toList do
    IO.FS.createDirAll path
    for (name, _) in after.folder (FilePath.ofText path) do
      match name with
      | .text name => saveFile before after (path ++ "/" ++ name)
      | .raw _ => continue

end ContentAddressed.Program

open ContentAddressed.Program in
def main (arguments : List String) : IO UInt32 := do
  let fillers := fillersOf (← IO.getRandomBytes 64).toList
  let (session, changed) ← match CommandLine.read arguments with
    | .invoke i => do
      let before ← load i
      let (session, after) := Session.start .unreachable fillers before arguments
      pure (session, save i before after)
    | _ => pure ((Session.start .unreachable fillers {} arguments).1, pure ())
  try changed catch e => IO.eprintln e.toString
  let out ← IO.getStdout
  out.write ⟨session.printed.toArray⟩
  out.flush
  for line in session.notices do
    IO.eprintln line
  return UInt32.ofNat session.code
