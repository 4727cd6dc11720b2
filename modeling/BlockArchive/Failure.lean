import BlockArchive.Reference.Kind
import BlockArchive.Schema.Basic

/-!
# Failures

Why a step fails: the store refuses a statement, the decoded block is not consistent in itself, or
there is no connection.

## Main definitions

- `QueryError`: why the store refuses a statement
- `Failure`: why a step fails
- `QueryError.message`, `Failure.message`: the causes in words
-/

namespace BlockArchive

/-- Why the store refuses a statement. -/
inductive QueryError where
  /-- There is no row where one has to be. -/
  | notFound
  /-- A text holds the character U+0000. -/
  | zeroByte
  /-- A time is too early to be stored. -/
  | timeOutOfRange
  /-- A stored time is too late to be read back. -/
  | timeTooLarge
  /-- Two rows of one batch have the same key. -/
  | repeatedKey
  /-- A row of `table` refers by `column` to a row that is not there. -/
  | missingReferent (table : TableName) (column : String)
  /-- A row of `target` is still referred to by `column` of `table`. -/
  | stillReferred (target table : TableName) (column : String)
deriving DecidableEq, Repr

namespace QueryError

/-- The name of the rule that a column of a table refers to a row that is there. -/
def referenceRule (table : TableName) (column : String) : String :=
  "\"" ++ table.name ++ "_" ++ column ++ "_fkey\""

/-- The cause in words. -/
def message : QueryError → String
  | notFound => "Record not found"
  | zeroByte => "invalid byte sequence for encoding \"UTF8\": 0x00"
  | timeOutOfRange => "timestamp out of range"
  | timeTooLarge =>
    "Error deserializing field 'time_stamp': Tried to deserialize a timestamp that is too large for " ++
      "Chrono"
  | repeatedKey => "ON CONFLICT DO UPDATE command cannot affect row a second time"
  | missingReferent table column =>
    "insert or update on table \"" ++ table.name ++ "\" violates foreign key constraint " ++
      referenceRule table column
  | stillReferred target table column =>
    "update or delete on table \"" ++ target.name ++ "\" violates foreign key constraint " ++
      referenceRule table column ++ " on table \"" ++ table.name ++ "\""

end QueryError

/-- Why a step fails. -/
inductive Failure where
  | notConnected (cause : String)
  /-- The store refuses a statement. -/
  | query (cause : QueryError)
  /-- A decoded block uses a reference text that it does not bring along. -/
  | unregisteredReference (kind : ReferenceKind) (key : String)
  /-- The store has not told the key of a row that it was given. -/
  | missingGeneratedKey (entity key : String)
  /-- Two decoded entities claim the same place. -/
  | duplicateIndex (entity key : String)
deriving DecidableEq, Repr

/-- The cause in words. -/
def Failure.message : Failure → String
  | notConnected cause => "repo is not connected: " ++ cause
  | query cause => "query failed: " ++ cause.message
  | unregisteredReference kind key =>
    kind.label ++ " `" ++ key ++ "` is used by a message but was never registered by the decoder"
  | missingGeneratedKey entity key => "no generated key was returned for " ++ entity ++ " `" ++ key ++ "`"
  | duplicateIndex entity key =>
    entity ++ " index `" ++ key ++ "` appears more than once in the decoded block"

end BlockArchive
