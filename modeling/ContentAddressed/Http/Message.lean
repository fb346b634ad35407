import ContentAddressed.Bytes

/-! # Requests and responses -/

namespace ContentAddressed.Http

structure Response where
  status : Nat := 200
  contentType : Option String := none
  body : Bytes := []
  deriving DecidableEq, Repr

structure Incoming where
  method : String := "GET"
  /-- The path, and a query that is ignored. -/
  target : String
  contentType : Option String := none
  body : Bytes := []
  deriving DecidableEq, Repr

structure Part where
  name : String
  contentType : Option String
  value : Bytes
  deriving DecidableEq, Repr

inductive Request where
  | download (url : String)
  | upload (url : String) (parts : List Part)
  deriving DecidableEq, Repr

def Request.url : Request → String
  | download url => url
  | upload url _ => url

def octetStream : String := "application/octet-stream"

/-- The content type of the line that answers an upload. -/
def plainText : String := "text/plain; charset=utf-8"

def json : String := "application/json"

def authenticatorField : String := "AUTHENTICATOR"

def digestField : String := "DIGEST_ALGORITHM"

def nameField : String := "EXPECTED_NAME"

def contentsField : String := "FILE_CONTENTS"

end ContentAddressed.Http
