import ContentAddressed.Error

/-!
# Failed commands

Why a command did not do its work. A failure inside the library is shown with all its causes.
-/

namespace ContentAddressed

/-- The message of an error, and that of its cause where the cause is an error of its own. -/
def Error.chain (e : Error) : String :=
  match e with
  | .io cause => e.message ++ ": " ++ cause.message
  | .decryption cause => e.message ++ ": " ++ cause.message
  | _ => e.message

inductive CommandError where
  | unusableConfig (path : String) (cause : Error)
  | noStore
  | unusableStore (cause : Error)
  | unreadable (path : String) (cause : IoError)
  | unwritable (path : String) (cause : IoError)
  | unflushed (cause : Error)
  | linkText
  | linkFrame (cause : Error)
  | noRoot
  | noListing
  | failed (cause : Error)
  deriving DecidableEq, Repr

def CommandError.message : CommandError → String
  | unusableConfig path cause => s!"failed to load config {path}: {cause.chain}"
  | noStore =>
    "no store configured: pass --store DIR or set store.directory in the config file"
  | unusableStore cause => s!"failed to open block store: {cause.chain}"
  | unreadable path cause => s!"failed to read {path}: {cause.message}"
  | unwritable path cause => s!"failed to write {path}: {cause.message}"
  | unflushed cause => s!"failed to flush blocks: {cause.chain}"
  | linkText => "--link is not valid base64"
  | linkFrame cause => s!"--link is not a link frame: {cause.chain}"
  | noRoot => "one of --link or --name is required"
  | noListing => "no store in the chain can enumerate its blocks"
  | failed cause => cause.chain

end ContentAddressed
