import BlockArchive.Tx.Basic

/-!
# Transactions without repeated hashes

A list of decoded transactions may repeat a hash. The last transaction of each hash is the one that
counts.

## Main definitions

- `Tx.uniqueByHash`: the last transaction of each hash, in the order of the hashes
-/

namespace BlockArchive.Tx

/-- The last transaction of each hash, in ascending order of the hashes. -/
def uniqueByHash (txs : List Tx) : List Tx :=
  (Std.ExtTreeMap.ofList (txs.map fun tx => (tx.hash, tx))).values

end BlockArchive.Tx
