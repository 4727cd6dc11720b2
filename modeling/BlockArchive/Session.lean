import BlockArchive.Log
import BlockArchive.Store.Statement

/-!
# Sessions

A step works on the store and writes records to the log. A step made of several statements is
carried out as one: if any of them fails no row changes, though the ids it took stay taken and the
records it wrote stay written.

## Main definitions

- `Session`: the store and the log so far
- `WriteM`: steps that may fail
- `WriteM.query`: a statement as part of a step
- `WriteM.log`, `WriteM.onFailure`: records of the log
- `WriteM.transaction`: all or nothing
-/

namespace BlockArchive

/-- What a step works on. -/
structure Session where
  store : Store := ∅
  /-- The records so far, the first one first. -/
  log : List LogEvent := []
deriving DecidableEq

/-- Steps that work on a session and may fail. -/
abbrev WriteM := EStateM Failure Session

namespace WriteM

variable {α : Type}

/-- Writes a record. -/
def log (event : LogEvent) : WriteM Unit :=
  modify fun session => { session with log := session.log ++ [event] }

/-- A statement as part of a step. -/
def query (statement : StoreM α) : WriteM α := fun session =>
  match statement session.store with
  | .ok answer store => .ok answer { session with store }
  | .error cause store => .error (.query cause) { session with store }

/-- An answer that is known beforehand, or the failure to find it. -/
def ofExcept : Except Failure α → WriteM α
  | .ok answer => pure answer
  | .error failure => throw failure

/-- Writes a record about the failure of a part of a step, if it fails. -/
def onFailure (part : WriteM α) (event : Failure → LogEvent) : WriteM α := fun session =>
  match part session with
  | .ok answer session => .ok answer session
  | .error failure session =>
    .error failure { session with log := session.log ++ [event failure] }

/-- A part of a step that stores a block; its failure is told with the stage. -/
def stage (stage : Stage) (block : Block) (part : WriteM α) : WriteM α :=
  part.onFailure (.failedStage stage block)

/-- A step that changes no row if any part of it fails. -/
def transaction (step : WriteM α) : WriteM α := fun session =>
  match step session with
  | .ok answer after => .ok answer after
  | .error failure after =>
    .error failure { after with store := session.store.rollback after.store }

end WriteM

end BlockArchive
