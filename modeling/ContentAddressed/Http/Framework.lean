import ContentAddressed.Http.MediaType
import ContentAddressed.Http.Message
import ContentAddressed.Text.Charset

/-!
# The library of a server

A server leaves the reading of labelled text and some refusals to its HTTP library. They are
whatever the library makes them; the standard ones know some charsets and are short.
-/

namespace ContentAddressed.Http

/-- What a server takes from its HTTP library. -/
class Framework where
  /-- How bytes are read in the charset with a label, if there is one, apart from byte order
  marks. -/
  charset? : String → Option (Bytes → String)
  /-- What is told of a request whose body could not be read as a form. -/
  formFault : Incoming → Option String
  /-- The answer to a form without a usable boundary. -/
  invalidBoundary : String
  /-- The answer to a name in a path that is not UTF-8. -/
  invalidPath : String

instance : Framework where
  charset? label := (Text.Charset.ofLabel? label).map Text.Charset.decode
  formFault _ := none
  invalidBoundary := "Invalid \x60boundary\x60 for \x60multipart/form-data\x60 request"
  invalidPath := "Invalid URL: Invalid UTF-8 in \x60name\x60"

/-- The charset that the content type of a field names. -/
def Part.charset? (p : Part) : Option String :=
  (p.contentType.bind MediaType.parse?).bind fun kind => kind.parameter? "charset"

variable [Framework]

/-- How a field is read that has no byte order mark; without a charset that is known, as UTF-8. -/
def Part.decoder (p : Part) : Bytes → String :=
  (p.charset?.bind Framework.charset?).getD Utf8.decodeLenient

def Part.text (p : Part) : String := Text.decodeAs p.decoder p.value

end ContentAddressed.Http
