import ContentAddressed.Config.Crypto
import ContentAddressed.Medium.Remote

/-!
# Settings

Where blocks are kept, how they are named and encrypted, and how the server is reached.
-/

namespace ContentAddressed

structure StoreConfig where
  /-- The directory of the disk store; without one everything stays in memory. -/
  directory : Option String := none
  mmapThreshold : Nat := 1048576
  blockSize : Nat := 4096
  remote : Option RemoteConfig := none
  deriving DecidableEq, Repr, Inhabited

structure ServerConfig where
  bind : String := "0.0.0.0:8090"
  directory : Option String := none
  authenticator : Secret := {}
  maxUploadBytes : Nat := 16777216
  deriving DecidableEq, Repr, Inhabited

structure Config where
  crypto : CryptoConfig := {}
  store : StoreConfig := {}
  server : ServerConfig := {}
  deriving DecidableEq, Repr, Inhabited

/-- The settings with those that the environment overrides. -/
def ServerConfig.override (c : ServerConfig) (lookup : String → Option String) : ServerConfig :=
  { c with
    bind := (lookup "CAIRN_BIND").getD c.bind
    directory := (lookup "CAIRN_DATA_DIR").or c.directory
    authenticator := ((lookup "CAIRN_AUTHENTICATOR").map Secret.mk).getD c.authenticator }

end ContentAddressed
