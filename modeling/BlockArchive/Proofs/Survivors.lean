import BlockArchive.Proofs.OrderedMap
import BlockArchive.Reference.Data
import BlockArchive.Tx.Unique
import Mathlib.Data.List.Dedup

/-!
# Surviving transactions

Of transactions with one hash the last survives. What the survivors bring along for the whole block
is merged, and the signers are those of the survivors.

## Main definitions

- `Tx.last?`: the last transaction of a hash

## Main statements

- `Tx.mem_uniqueByHash`: the survivors are the last transactions of their hashes
- `Tx.nodup_hashes`, `Tx.perm_hashes`: no two survivors share their hash, and every hash has one
- `ReferenceData.mem_signers_collect`: the signers of a block
-/

namespace BlockArchive

namespace Tx

/-- The last transaction of a hash. -/
def last? (txs : List Tx) (hash : String) : Option Tx :=
  txs.reverse.find? fun tx => tx.hash = hash

theorem hash_of_last? {txs : List Tx} {hash : String} {tx : Tx} (h : last? txs hash = some tx) :
    tx ∈ txs ∧ tx.hash = hash :=
  ⟨List.mem_reverse.1 (List.mem_of_find?_eq_some h), by simpa using List.find?_some h⟩

theorem getElem?_byHash (txs : List Tx) (hash : String) :
    (Std.ExtTreeMap.ofList (txs.map fun tx => (tx.hash, tx)))[hash]? = last? txs hash :=
  OrderedMap.getElem?_ofList_map _ txs hash

theorem mem_uniqueByHash {txs : List Tx} {tx : Tx} :
    tx ∈ uniqueByHash txs ↔ last? txs tx.hash = some tx :=
  OrderedMap.mem_values_ofList_map

theorem mem_of_mem_uniqueByHash {txs : List Tx} {tx : Tx} (h : tx ∈ uniqueByHash txs) : tx ∈ txs :=
  (hash_of_last? (mem_uniqueByHash.1 h)).1

/-- A single transaction survives. -/
theorem uniqueByHash_singleton (tx : Tx) : uniqueByHash [tx] = [tx] := by
  rw [uniqueByHash, List.map_singleton, OrderedMap.values_eq_map_toList,
    OrderedMap.toList_ofList_of_ascending (List.pairwise_singleton _ _), List.map_singleton]

/-- Of every hash there is a survivor. -/
theorem exists_mem_uniqueByHash {txs : List Tx} {hash : String} (h : hash ∈ txs.map (·.hash)) :
    ∃ tx ∈ uniqueByHash txs, tx.hash = hash := by
  obtain ⟨tx, htx, rfl⟩ := List.mem_map.1 h
  cases hlast : last? txs tx.hash with
  | none =>
    have hnone := List.find?_eq_none.1 hlast tx (List.mem_reverse.2 htx)
    exact absurd (decide_eq_true rfl) hnone
  | some last =>
    have hhash := (hash_of_last? hlast).2
    exact ⟨last, mem_uniqueByHash.2 (by rwa [hhash]), hhash⟩

/-- No two survivors share their hash. -/
theorem nodup_hashes (txs : List Tx) : ((uniqueByHash txs).map (·.hash)).Nodup :=
  OrderedMap.nodup_values_ofList_map _ txs

/-- There is one survivor of each hash. -/
theorem perm_hashes (txs : List Tx) :
    ((uniqueByHash txs).map (·.hash)).Perm (txs.map (·.hash)).dedup := by
  rw [List.perm_ext_iff_of_nodup (nodup_hashes txs) (List.nodup_dedup _)]
  intro hash
  rw [List.mem_dedup]
  constructor
  · intro h
    obtain ⟨tx, htx, rfl⟩ := List.mem_map.1 h
    exact List.mem_map_of_mem (mem_of_mem_uniqueByHash htx)
  · intro h
    obtain ⟨tx, htx, rfl⟩ := exists_mem_uniqueByHash h
    exact List.mem_map_of_mem htx

/-- All transactions survive if no hash is repeated. -/
theorem length_uniqueByHash_eq_iff {txs : List Tx} :
    (uniqueByHash txs).length = txs.length ↔ (txs.map (·.hash)).Nodup := by
  have hlength := (perm_hashes txs).length_eq
  rw [List.length_map] at hlength
  have hall : (txs.map (·.hash)).length = txs.length := List.length_map _
  rw [hlength, ← hall, ← List.dedup_eq_self]
  exact ⟨(List.dedup_sublist _).eq_of_length, congrArg List.length⟩

end Tx

namespace ReferenceData

/-- A single transaction is not overridden. -/
theorem collect_singleton (tx : Tx) : collect [tx] = ofTx tx := by
  have hmap : ∀ texts : TextMap, ∅ ∪ texts = texts := by
    intro texts
    apply Std.ExtTreeMap.ext_getElem?
    intro key
    rw [Std.ExtTreeMap.getElem?_union, Std.ExtTreeMap.getElem?_empty, Option.or_none]
  have hset : ∅ ∪ (ofTx tx).signers = (ofTx tx).signers := by
    apply Std.ExtTreeSet.ext_mem
    intro address
    rw [Std.ExtTreeSet.mem_union_iff]
    exact or_iff_right Std.ExtTreeSet.not_mem_empty
  show mk (∅ ∪ tx.messageTypes) (∅ ∪ tx.eventTypes) (∅ ∪ tx.attributeKeys)
    (∅ ∪ (ofTx tx).signers) = ofTx tx
  rw [hmap, hmap, hmap, hset, ofTx]

theorem mem_signers_merge {a b : ReferenceData} {address : String} :
    address ∈ (a.merge b).signers ↔ address ∈ a.signers ∨ address ∈ b.signers :=
  Std.ExtTreeSet.mem_union_iff

theorem mem_signers_ofTx {tx : Tx} {address : String} :
    address ∈ (ofTx tx).signers ↔ tx.signer = some address := by
  rw [ofTx, Std.ExtTreeSet.mem_ofList, List.contains_iff_mem, Option.mem_toList]

/-- The signers of a block are those of its transactions. -/
theorem mem_signers_collect {txs : List Tx} {address : String} :
    address ∈ (collect txs).signers ↔ ∃ tx ∈ txs, tx.signer = some address := by
  have hfold : ∀ data : ReferenceData,
      address ∈ (txs.foldl (fun data tx => data.merge (ofTx tx)) data).signers ↔
        address ∈ data.signers ∨ ∃ tx ∈ txs, tx.signer = some address := by
    induction txs with
    | nil => simp
    | cons tx rest ih =>
      intro data
      rw [List.foldl_cons, ih, mem_signers_merge, mem_signers_ofTx, or_assoc]
      simp only [List.mem_cons, exists_eq_or_imp]
  rw [collect, hfold]
  have hempty : address ∉ (∅ : ReferenceData).signers := Std.ExtTreeSet.not_mem_empty
  simp [hempty]

theorem nodup_signers (data : ReferenceData) : data.signers.toList.Nodup := by
  rw [List.Nodup]
  refine (Std.ExtTreeSet.distinct_toList (t := data.signers)).imp fun {a b} hne he => hne ?_
  rw [he, Std.ReflOrd.compare_self]

/-- There are as many signers of a block as there are different ones among its transactions. -/
theorem length_signers_collect (txs : List Tx) :
    (collect txs).signers.toList.length = (txs.filterMap fun tx => tx.signer).dedup.length := by
  apply List.Perm.length_eq
  rw [List.perm_ext_iff_of_nodup (nodup_signers _) (List.nodup_dedup _)]
  intro address
  rw [Std.ExtTreeSet.mem_toList, mem_signers_collect, List.mem_dedup, List.mem_filterMap]

end ReferenceData

end BlockArchive
