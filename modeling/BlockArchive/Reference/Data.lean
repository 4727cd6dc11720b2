import BlockArchive.Tx.Basic
import Std.Data.ExtTreeSet

/-!
# Reference data of a block

The texts that the transactions of a block bring along, taken together, and the addresses of those
who signed them. Each kind is written once for the whole block, however many transactions use it.

## Main definitions

- `ReferenceData`: texts and addresses that many transactions share
- `ReferenceData.ofTx`: what one transaction brings along
- `ReferenceData.collect`: what a list of transactions brings along
-/

namespace BlockArchive

/-- Texts and addresses that many transactions share. -/
structure ReferenceData where
  messageTypes : TextMap := ∅
  eventTypes : TextMap := ∅
  attributeKeys : TextMap := ∅
  signers : Std.ExtTreeSet String := ∅
deriving DecidableEq

namespace ReferenceData

instance : EmptyCollection ReferenceData := ⟨{}⟩

/-- What one transaction brings along. -/
def ofTx (tx : Tx) : ReferenceData where
  messageTypes := tx.messageTypes
  eventTypes := tx.eventTypes
  attributeKeys := tx.attributeKeys
  signers := Std.ExtTreeSet.ofList tx.signer.toList

/-- Both together; where they differ about a key, the second is right. -/
def merge (a b : ReferenceData) : ReferenceData where
  messageTypes := a.messageTypes ∪ b.messageTypes
  eventTypes := a.eventTypes ∪ b.eventTypes
  attributeKeys := a.attributeKeys ∪ b.attributeKeys
  signers := a.signers ∪ b.signers

/-- What the transactions bring along; where they differ about a key, the last is right. -/
def collect (txs : List Tx) : ReferenceData :=
  txs.foldl (fun data tx => data.merge (ofTx tx)) ∅

end ReferenceData

end BlockArchive
