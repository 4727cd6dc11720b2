import BlockArchive.Chain
import BlockArchive.Text.Blank

/-!
# Configuration

How the archive reaches its store, and which chain it is set up for.

## Main definitions

- `Config`: the settings
- `Config.new`: the settings for an address, all others at their defaults
- `Config.validate`: the first setting that cannot be used
-/

namespace BlockArchive

/-- The settings of the archive. -/
structure Config where
  databaseUrl : String
  /-- How many connections are kept, and so how many blocks are stored at a time. -/
  poolSize : UInt32
  /-- How long a connection may take, in milliseconds. -/
  timeoutMs : UInt64
  /-- The chain that is registered when the archive is set up. -/
  chain : Option Chain
deriving DecidableEq

/-- Why settings cannot be used. -/
inductive ConfigError where
  /-- The address of the store is blank. -/
  | noDatabaseUrl
  | zeroPoolSize
  /-- The id of the chain is blank. -/
  | emptyChainId
deriving DecidableEq, Repr

/-- The cause in words. -/
def ConfigError.message : ConfigError → String
  | noDatabaseUrl => "a database url is required"
  | zeroPoolSize => "the connection pool needs at least one connection"
  | emptyChainId => "the configured chain needs a chain id"

namespace Config

/-- The settings for an address, all others at their defaults. -/
def new (databaseUrl : String) : Config where
  databaseUrl
  poolSize := 10
  timeoutMs := 30000
  chain := none

/-- Refuses settings that cannot be used: the address is looked at first, then the number of
connections, then the chain. -/
def validate (config : Config) : Except ConfigError Unit :=
  if Text.allBlank config.databaseUrl then .error .noDatabaseUrl
  else if config.poolSize = 0 then .error .zeroPoolSize
  else if config.chain.any fun chain => Text.allBlank chain.chainId then .error .emptyChainId
  else .ok ()

end Config

end BlockArchive
