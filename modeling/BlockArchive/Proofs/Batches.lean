import BlockArchive.Proofs.Effects

/-!
# Batches

The steps are taken with what carries out a statement left open. A step that comes out the same with
whatever does with the batches of one kind, and with parts of them, what the store does sends no
statement with other rows.

## Main definitions

- `AgreeOn`: two ways to carry out statements do the same with rows of a kind
- `Persist.Makes`: the batches that the stages of a block make are of a kind

## Main statements

- `persistBy_eq`, `upsertDenomsBy_eq`, `upsertIbcDenomsBy_eq`: a step sends batches of one kind only
-/

namespace BlockArchive

open Persist

/-! ## Statements of one kind -/

/-- Two ways to carry out statements do the same with rows that are as `P` tells. -/
def AgreeOn {α : TableName → Type} (P : (n : TableName) → List n.Row → Prop)
    (carry carry' : (n : TableName) → List n.Row → StoreM (α n)) : Prop :=
  ∀ n rows, P n rows → carry n rows = carry' n rows

/-- Rows that are taken out of a batch are of its kind. -/
def OfParts (P : (n : TableName) → List n.Row → Prop) : Prop :=
  ∀ n rows part, P n rows → List.Sublist part rows → P n part

theorem mapM_congr {ε σ α β : Type} {f g : α → EStateM ε σ β} {l : List α}
    (h : ∀ a ∈ l, f a = g a) : l.mapM f = l.mapM g := by
  induction l with
  | nil => rfl
  | cons a rest ih =>
    rw [List.mapM_cons, List.mapM_cons, h a List.mem_cons_self,
      ih fun b hb => h b (List.mem_cons_of_mem _ hb)]

theorem forM_congr {ε σ α : Type} {f g : α → EStateM ε σ PUnit} {l : List α}
    (h : ∀ a ∈ l, f a = g a) : l.forM f = l.forM g := by
  induction l with
  | nil => rfl
  | cons a rest ih =>
    have hrest := ih fun b hb => h b (List.mem_cons_of_mem _ hb)
    simp only [List.forM_eq_forM, List.forM_cons] at hrest ⊢
    rw [h a List.mem_cons_self, hrest]

section Parts

variable {P : (n : TableName) → List n.Row → Prop} (hparts : OfParts P) {n : TableName}
  {rows : List n.Row} (h : P n rows)

include hparts h

theorem AgreeOn.all_eq {carry carry' : Carrier} (hcarry : AgreeOn P carry carry') :
    carry.all n rows = carry'.all n rows := by
  rw [Carrier.all, Carrier.all, mapM_congr fun part hpart => hcarry n part
    (hparts n rows part h (TableName.sublist_of_mem_statements hpart))]

theorem AgreeOn.forM_eq {carry carry' : (n : TableName) → List n.Row → StoreM Unit}
    (hcarry : AgreeOn P carry carry') :
    (n.statements rows).forM (carry n) = (n.statements rows).forM (carry' n) :=
  forM_congr fun part hpart => hcarry n part
    (hparts n rows part h (TableName.sublist_of_mem_statements hpart))

end Parts

/-! ## The batches of a block -/

/-- What is made beforehand is all that the rest of a step has to go by. -/
theorem WriteM.ofExcept_bind_congr {α β : Type} {made : Except Failure α}
    {rest rest' : α → WriteM β} (h : ∀ answer, made = .ok answer → rest answer = rest' answer) :
    WriteM.ofExcept made >>= rest = WriteM.ofExcept made >>= rest' := by
  cases made with
  | error failure => rfl
  | ok answer => exact h answer rfl

namespace Persist

/-- The batches that the stages of a block make are as `P` tells, whatever ids the rows above them
have. -/
structure Makes (P : (n : TableName) → List n.Row → Prop) (txs : List Tx) : Prop where
  addresses : P .addresses (ReferenceData.collect txs).signers.toList
  txes : ∀ block addresses rows, txRows block addresses txs = .ok rows → P .txes rows
  messageTypes : P .messageTypes (ReferenceData.collect txs).messageTypes.values
  eventTypes : P .eventTypes (ReferenceData.collect txs).eventTypes.values
  attributeKeys : P .attributeKeys (ReferenceData.collect txs).attributeKeys.values
  messages : ∀ ids refs rows, messageRows ids refs txs = .ok rows → P .messages rows
  events : ∀ ids refs rows, eventRows ids refs txs = .ok rows → P .events rows
  attributes : ∀ ids refs rows, attributeRows ids refs txs = .ok rows → P .attributes rows

variable {P : (n : TableName) → List n.Row → Prop} {carry : Carrier} {block : Block} {txs : List Tx}

section Stages

variable (hparts : OfParts P) (hcarry : AgreeOn P carry Store.upsert) (h : Makes P txs)

include hparts hcarry h

theorem storeAddressesBy_eq : storeAddressesBy carry (ReferenceData.collect txs) =
    storeAddresses (ReferenceData.collect txs) := by
  rw [storeAddressesBy, hcarry.all_eq hparts h.addresses]
  rfl

theorem storeReferencesBy_eq : storeReferencesBy carry (ReferenceData.collect txs) =
    storeReferences (ReferenceData.collect txs) := by
  rw [storeReferencesBy, hcarry.all_eq hparts h.messageTypes, hcarry.all_eq hparts h.eventTypes,
    hcarry.all_eq hparts h.attributeKeys]
  rfl

theorem storeTxesBy_eq (block : Id) (addresses : Std.ExtTreeMap String Id) :
    storeTxesBy carry block addresses txs = storeTxes block addresses txs := by
  refine WriteM.ofExcept_bind_congr fun rows hrows => ?_
  rw [hcarry.all_eq hparts (h.txes _ _ rows hrows)]

theorem storeMessagesBy_eq (txes : Std.ExtTreeMap String Id) (refs : ResolvedReferences) :
    storeMessagesBy carry txes refs txs = storeMessages txes refs txs := by
  refine WriteM.ofExcept_bind_congr fun rows hrows => ?_
  rw [hcarry.all_eq hparts (h.messages _ _ rows hrows)]
  refine bind_congr fun messages => bind_congr fun _ => ?_
  refine WriteM.ofExcept_bind_congr fun rows hrows => ?_
  rw [hcarry.all_eq hparts (h.events _ _ rows hrows)]
  refine bind_congr fun events => bind_congr fun _ => ?_
  refine WriteM.ofExcept_bind_congr fun rows hrows => ?_
  rw [hcarry.all_eq hparts (h.attributes _ _ rows hrows)]

end Stages

end Persist

/-- A block whose stages make batches of one kind sends no rows of another. -/
theorem persistBy_eq {P : (n : TableName) → List n.Row → Prop} {carry : Carrier} {block : Block}
    {txs : List Tx} (hparts : OfParts P) (hcarry : AgreeOn P carry Store.upsert)
    (hblock : P .blocks [block.row .txs]) (h : Makes P (Tx.uniqueByHash txs)) :
    persistBy carry block txs = persist block txs := by
  have hstages : stagesBy carry block txs = stages block txs := by
    have hstored : carry.one .blocks (block.row .txs) =
        Store.upsertOne .blocks (block.row .txs) := by
      rw [Carrier.one, hcarry _ _ hblock]
      rfl
    simp only [stagesBy, storeBelowBy, hstored, storeAddressesBy_eq hparts hcarry h,
      storeTxesBy_eq hparts hcarry h, storeReferencesBy_eq hparts hcarry h,
      storeMessagesBy_eq hparts hcarry h]
    rfl
  rw [persistBy, hstages]
  rfl

/-! ## The batches of denominations -/

theorem bind_run_congr {ε σ α β : Type} {part part' : EStateM ε σ α}
    {rest rest' : α → EStateM ε σ β} {s : σ} (hpart : part s = part' s)
    (hrest : ∀ answer t, part' s = .ok answer t → rest answer t = rest' answer t) :
    (part >>= rest) s = (part' >>= rest') s := by
  cases h : part' s with
  | ok answer t => rw [bind_of_ok (hpart.trans h), bind_of_ok h, hrest answer t h]
  | error failure t => rw [bind_of_error (hpart.trans h), bind_of_error h]

theorem WriteM.transaction_run_congr {α : Type} {step step' : WriteM α} {session : Session}
    (h : step session = step' session) :
    WriteM.transaction step session = WriteM.transaction step' session := by
  rw [transaction, transaction, h]

section Denoms

variable {P Q : (n : TableName) → List n.Row → Prop} {carry : Carrier}

/-- Denominations come in two batches, the second made with the ids that the first is told. -/
theorem upsertDenomsBy_eq {carryAbsent : (n : TableName) → List n.Row → StoreM Unit}
    {entries : List DenomWithUnits} {session : Session} (hparts : OfParts P) (hparts' : OfParts Q)
    (hcarry : AgreeOn P carry Store.upsert)
    (hcarryAbsent : AgreeOn Q carryAbsent Store.insertAbsent)
    (hdenoms : P .denoms ((DenomWithUnits.uniqueByBase entries).map (·.denom)))
    (hunits : ∀ stored t units,
      Store.upsertAll .denoms ((DenomWithUnits.uniqueByBase entries).map (·.denom)) session.store =
        .ok stored t →
      (DenomWithUnits.uniqueByBase entries).mapM
        (DenomWithUnits.unitRows (Entry.idsBy Denom.base stored)) = .ok units →
      Q .denomUnits units.flatten) :
    upsertDenomsBy carry carryAbsent entries session = upsertDenoms entries session := by
  refine bind_run_congr (WriteM.transaction_run_congr ?_) fun _ _ _ => rfl
  rw [hcarry.all_eq hparts hdenoms]
  refine bind_run_congr rfl fun stored after hstored => ?_
  have hupsert := (WriteM.ok_of_query hstored).1
  refine congrFun (WriteM.ofExcept_bind_congr fun units hmade => ?_) after
  rw [hcarryAbsent.forM_eq hparts' (hunits stored _ units hupsert hmade)]

theorem upsertIbcDenomsBy_eq {denoms : List IbcDenom} (hparts : OfParts P)
    (hcarry : AgreeOn P carry Store.upsert) (h : P .ibcDenoms (IbcDenom.uniqueByHash denoms)) :
    upsertIbcDenomsBy carry denoms = upsertIbcDenoms denoms := by
  rw [upsertIbcDenomsBy, hcarry.all_eq hparts h]
  rfl

end Denoms

end BlockArchive
