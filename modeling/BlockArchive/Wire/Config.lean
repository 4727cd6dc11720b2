import BlockArchive.Config
import BlockArchive.Wire.Registry

/-!
# Written settings

## Main definitions

- `Config.toJson`: the settings of the archive
-/

namespace BlockArchive

/-- The settings as they are written. -/
def Config.toJson (config : Config) : Json :=
  .obj [
    ("database_url", .str config.databaseUrl),
    ("pool_size", .ofNat config.poolSize.toNat),
    ("connection_timeout_ms", .ofNat config.timeoutMs.toNat),
    ("chain", .ofOption Chain.toJson config.chain)]

end BlockArchive
