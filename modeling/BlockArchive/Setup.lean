import BlockArchive.Config
import BlockArchive.Registry

/-!
# Setting up

The settings are checked before anything is connected to. Then the store must answer, and the
configured chain is registered. Setting up again changes nothing but the ids that are left.

## Main definitions

- `ArchiveError`: why the archive cannot be set up
- `SetupM`: steps that may also fail for their settings
- `setup`: the id of the configured chain

## Design notes

Whether the store can be connected to is not known here, so what comes of connecting is given: the
store answers, or there is a cause why it does not.
-/

namespace BlockArchive

/-- Why the archive cannot be set up. -/
inductive ArchiveError where
  /-- The settings cannot be used. -/
  | config (cause : ConfigError)
  /-- The step has failed. -/
  | repo (cause : Failure)
deriving DecidableEq

/-- The cause in words. -/
def ArchiveError.message : ArchiveError → String
  | config cause => "config error: " ++ cause.message
  | repo cause => "repo error: " ++ cause.message

/-- Steps that may also fail for their settings. -/
abbrev SetupM := EStateM ArchiveError Session

/-- A step that does not depend on settings. -/
def SetupM.ofWrite {α : Type} (step : WriteM α) : SetupM α := fun session =>
  match step session with
  | .ok answer session => .ok answer session
  | .error failure session => .error (.repo failure) session

/-- Goes on once the store is connected to. -/
def connect (connection : Except String Unit) : SetupM Unit :=
  match connection with
  | .ok () => pure ()
  | .error cause => throw (.repo (.notConnected cause))

/-- Sets the archive up, given what comes of connecting to the store, and tells the id of the
configured chain if there is one. -/
def setup (connection : Except String Unit) (config : Config) : SetupM (Option Id) := do
  match config.validate with
  | .error cause => throw (.config cause)
  | .ok () =>
    connect connection
    let chain ← SetupM.ofWrite (config.chain.mapM registerChain)
    SetupM.ofWrite (WriteM.log (.ready config.poolSize chain))
    return chain

end BlockArchive
