import ContentAddressed.Digest.Algorithm
import ContentAddressed.Text.Hex

/-!
# Errors

Every failure is a cause with its data; `message` holds the wording. The constructors `other` carry
a reason in words that was found outside the library.
-/

namespace ContentAddressed

inductive FormatError where
  | noColon (name : String)
  | manyColons (name : String)
  | badBase64 (name : String)
  | digestSize (algorithm : DigestAlgorithm) (found : Nat)
  | underflow (what : String) (need offset left : Nat)
  | badMagic (what : String) (found : Bytes)
  | notPrintable (what : String)
  | linkBodyLength (declared sum : Nat)
  | emptyTarget
  | trailingBytes (count : Nat)
  | sizeExponent (exponent : Nat)
  | frameLength (exponent found : Nat)
  | contentOverrun (offset length frame : Nat)
  | linksEnd (position declared : Nat)
  | other (reason : String)
  deriving DecidableEq, Repr

def FormatError.message : FormatError → String
  | noColon name => s!"fingerprint '{name}' has no ':'"
  | manyColons name => s!"fingerprint '{name}' has more than one ':'"
  | badBase64 name => s!"fingerprint '{name}': bad base64"
  | digestSize a found => s!"{a.name} digest must be {a.size} bytes, got {found}"
  | underflow what need offset left =>
    s!"buffer underflow reading {what}: need {need} bytes at offset {offset}, {left} left"
  | badMagic what found => s!"bad {what} magic: {Hex.showList found}"
  | notPrintable what => s!"{what} is not printable ASCII"
  | linkBodyLength declared sum =>
    s!"link body length {declared} does not match field lengths {sum}"
  | emptyTarget => "link target is empty"
  | trailingBytes count => s!"{count} trailing bytes after link"
  | sizeExponent e => s!"block size exponent {e} outside 4..=31"
  | frameLength e found =>
    s!"block header declares 2^{e} = {1 <<< e} bytes, buffer holds {found}"
  | contentOverrun offset length frame =>
    s!"block content {offset}+{length} overruns {frame}-byte frame"
  | linksEnd position declared =>
    s!"links end at offset {position}, header declares data at {declared}"
  | other reason => reason

inductive AlgorithmError where
  | unknownDigest (spelling : String)
  | other (reason : String)
  deriving DecidableEq, Repr

def AlgorithmError.message : AlgorithmError → String
  | unknownDigest spelling => s!"unknown digest algorithm '{spelling}'"
  | other reason => reason

inductive ArgumentError where
  | noTarget
  | linkText (what : String)
  | linkField (what : String) (size : Nat)
  | linkBody (size : Nat)
  | tooManyLinks (count : Nat)
  | desiredSize (size minimum : Nat)
  | frameLimit (minimum : Nat)
  | shortDigest (algorithm : DigestAlgorithm) (keyBits : Nat)
  | missingPart (what : String)
  | wrongName (name : String)
  | wrongTarget (target name : String)
  | blockSize (size : Nat)
  | noRoot
  | fileName (name : String)
  | notDecrypted (name : String)
  | notFetched (name : String)
  | cycle (name : String)
  | other (reason : String)
  deriving DecidableEq, Repr

def ArgumentError.message : ArgumentError → String
  | noTarget => "link has no target"
  | linkText what => s!"link {what} must be printable ASCII"
  | linkField what size => s!"link {what} of {size} bytes is too long"
  | linkBody size => s!"link body of {size} bytes exceeds 65535"
  | tooManyLinks count => s!"block has {count} links, at most 255 allowed"
  | desiredSize size minimum =>
    s!"desired size {size} must be a power of two of at least {minimum}"
  | frameLimit minimum => s!"block of {minimum} bytes exceeds the 2^31-byte frame limit"
  | shortDigest a keyBits =>
    s!"{a.name} digest has {a.size} bytes, cannot derive a {keyBits}-bit key"
  | missingPart what => s!"encrypted block has no {what}"
  | wrongName name => s!"encrypted block name {name} is not the fingerprint of its ciphertext"
  | wrongTarget target name => s!"link targets {target} but the block is named {name}"
  | blockSize size => s!"block size {size} must be a power of two between 32 and 2^31"
  | noRoot => "file produced no root block"
  | fileName name => s!"'{name}' is not a valid block file name"
  | notDecrypted name => s!"block '{name}' could not be decrypted"
  | notFetched name => s!"block '{name}' was not fetched"
  | cycle name => s!"block '{name}' links back to itself"
  | other reason => reason

inductive KeyLengthError where
  | iv (size : Nat)
  | key (size : Nat)
  | other (reason : String)
  deriving DecidableEq, Repr

def KeyLengthError.message : KeyLengthError → String
  | iv size => s!"IV must be empty or 16 bytes, got {size}"
  | key size => s!"AES key must be 16, 24 or 32 bytes, got {size}"
  | other reason => reason

inductive PaddingError where
  | partialBlock (size : Nat)
  | malformed
  | other (reason : String)
  deriving DecidableEq, Repr

def PaddingError.message : PaddingError → String
  | partialBlock size => s!"CBC ciphertext length {size} is not a multiple of 16"
  | malformed => "Unpad Error"
  | other reason => reason

inductive CipherError where
  | missingKey
  | unsupportedCipher (transformation : String)
  | keyLength (cause : KeyLengthError)
  | badPadding (cause : PaddingError)
  deriving DecidableEq, Repr

def CipherError.message : CipherError → String
  | missingKey => "no key material available"
  | unsupportedCipher transformation => s!"unsupported cipher transformation: {transformation}"
  | keyLength cause => s!"invalid key or IV length: {cause.message}"
  | badPadding cause => s!"bad padding: {cause.message}"

/-- Failures of a storage medium; all but `notUtf8` and `other` come from the operating system. -/
inductive IoError where
  | notFound
  | isDirectory
  | notDirectory
  | nameTooLong
  | noDevice
  | alreadyExists
  | notUtf8
  | other (reason : String)
  deriving DecidableEq, Repr

def IoError.message : IoError → String
  | notFound => "No such file or directory (os error 2)"
  | isDirectory => "Is a directory (os error 21)"
  | notDirectory => "Not a directory (os error 20)"
  | nameTooLong => "File name too long (os error 36)"
  | noDevice => "No such device (os error 19)"
  | alreadyExists => "File exists (os error 17)"
  | notUtf8 => "stream did not contain valid UTF-8"
  | other reason => reason

def IoError.isSystem : IoError → Bool
  | notUtf8 | other _ => false
  | _ => true

inductive PeerError where
  | uploadStatus (status : Nat) (body : String)
  | wrongEcho (echoed name : String)
  | downloadStatus (status : Nat)
  | contentType (found : String)
  | unreachable (url : String)
  | other (reason : String)
  deriving DecidableEq, Repr

def PeerError.message : PeerError → String
  | uploadStatus status body => s!"server returned {status}: {body}"
  | wrongEcho echoed name => s!"server stored '{echoed}' instead of '{name}'"
  | downloadStatus status => s!"server returned {status}"
  | contentType found => s!"unexpected content type '{found}'"
  | unreachable url => s!"error sending request for url ({url})"
  | other reason => reason

inductive ConfigError where
  | keyBits (found : Nat)
  | unreadable (path : String) (cause : IoError)
  | invalidYaml
  | other (reason : String)
  deriving DecidableEq, Repr

def ConfigError.message : ConfigError → String
  | keyBits found => s!"key_bits must be 128, 192 or 256, got {found}"
  | unreadable path cause => s!"cannot read {path}: {cause.message}"
  | invalidYaml => "invalid YAML"
  | other reason => reason

inductive Error where
  | format (cause : FormatError)
  | unsupportedAlgorithm (cause : AlgorithmError)
  | invalidArgument (cause : ArgumentError)
  | decryption (cause : CipherError)
  | noSuchBlock (name : String)
  | io (cause : IoError)
  | network (endpoint : String) (cause : PeerError)
  | cacheInconsistency (name : String)
  | integrity (name : String)
  | depthExceeded (limit : Nat)
  | config (cause : ConfigError)
  deriving DecidableEq, Repr

namespace Error

def message : Error → String
  | format cause => s!"format error: {cause.message}"
  | unsupportedAlgorithm cause => s!"unsupported algorithm: {cause.message}"
  | invalidArgument cause => s!"invalid argument: {cause.message}"
  | decryption cause => s!"decryption failed: {cause.message}"
  | noSuchBlock name => s!"no such block: {name}"
  | io cause => s!"io error: {cause.message}"
  | network endpoint cause => s!"network error calling {endpoint}: {cause.message}"
  | cacheInconsistency name =>
    s!"cache inconsistency: block '{name}' is journaled but not in cache"
  | integrity name =>
    s!"integrity violation: bytes stored under '{name}' do not match its fingerprint"
  | depthExceeded limit => s!"link graph deeper than the configured limit of {limit}"
  | config cause => s!"configuration error: {cause.message}"

/-- Whether a medium, a peer or the order of writes is at fault. -/
def isIo : Error → Bool
  | io _ | network _ _ | cacheInconsistency _ => true
  | _ => false

/-- Whether the failure shows a fault of the program and must not be retried. -/
def isFatal : Error → Bool
  | cacheInconsistency _ => true
  | _ => false

end Error

end ContentAddressed
