import BlockArchive.Proofs.Store.Cut
import BlockArchive.Step

/-!
# Steps as runs of statements

Whatever a step does to the store it does by statements: it offers rows to tables and takes rows
out. Which rows a step may offer and which it may take is known before it is carried out, so a fact
about single statements becomes one about steps.

## Main definitions

- `Step.next`, `Step.Succeeds`: the store after a step, and whether the step succeeds
- `Step.Offers`, `Step.Takes`: the rows that a step may offer, and those that it may take out
- `Store.Belongs`: the rows that go with a chain
- `StatementRelation`: the relations that every statement keeps to

## Main statements

- `Step.related_next`: what every statement of a step keeps to, the step keeps to
-/

namespace BlockArchive

namespace Store

/-- The ids of the blocks of a chain. -/
def blockIds (s : Store) (chain : Id) : List Id :=
  s.blocks.idsWhere fun row => row.chain = chain

/-- The ids of the transactions that are in those blocks. -/
def txIds (s : Store) (chain : Id) : List Id :=
  s.txes.idsWhere fun row => row.block ∈ s.blockIds chain

/-- The ids of the messages of those transactions. -/
def messageIds (s : Store) (chain : Id) : List Id :=
  s.messages.idsWhere fun row => row.tx ∈ s.txIds chain

/-- The ids of the events of those messages. -/
def eventIds (s : Store) (chain : Id) : List Id :=
  s.events.idsWhere fun row => row.message ∈ s.messageIds chain

/-- The rows that go with a chain. -/
def Belongs (s : Store) (chain : Id) : (n : TableName) → Entry n.Row → Prop
  | .chains, entry => entry.id = chain
  | .blocks, entry => entry.id ∈ s.blockIds chain
  | .txes, entry => entry.id ∈ s.txIds chain
  | .messages, entry => entry.id ∈ s.messageIds chain
  | .events, entry => entry.id ∈ s.eventIds chain
  | .attributes, entry => entry.row.event ∈ s.eventIds chain
  | .failedBlocks, entry => entry.row.chain = chain
  | .failedEventBlocks, entry => entry.row.chain = chain
  | _, _ => False

end Store

namespace Step

/-- The store after the step, whether it has succeeded or failed. -/
def next (step : Step) (s : Store) : Store :=
  (step.outcome s).store

/-- The step is carried out. -/
def Succeeds (step : Step) (s : Store) : Prop :=
  ∃ answer, (step.outcome s).answer = .ok answer

instance (step : Step) (s : Store) : Decidable (step.Succeeds s) :=
  decidable_of_iff ((step.outcome s).answer.toOption.isSome) <| by
    rw [Succeeds]
    cases (step.outcome s).answer <;> simp [Except.toOption]

/-- The rows that the step may offer to a table. -/
def Offers : Step → (n : TableName) → n.Row → Prop
  | registerChain chain, .chains, row => row = chain
  | persist block _, .blocks, row => row = block.row .txs
  | persist _ _, n, _ =>
    n ∈ [.addresses, .txes, .messageTypes, .messages, .eventTypes, .events, .attributeKeys,
      .attributes]
  | markEventsIndexed block, .blocks, row => row = block.row .events
  | markFailed _ chain _, .chains, row => row = chain
  | markFailed .txs _ height, .failedBlocks, row => row.height = height
  | markFailed .events _ height, .failedEventBlocks, row => row.height = height
  | upsertDenoms _, n, _ => n = .denoms ∨ n = .denomUnits
  | upsertIbcDenoms _, n, _ => n = .ibcDenoms
  | setup _ config, .chains, row => config.chain = some row
  | _, _, _ => False

/-- The rows that the step may take out of a store: a pipeline takes the marker of the height that
it has seen to, and a chain takes what goes with it. -/
def Takes : Step → Store → (n : TableName) → Entry n.Row → Prop
  | persist block _, _, .failedBlocks, entry => entry.row = block.marker
  | markEventsIndexed block, _, .failedEventBlocks, entry => entry.row = block.marker
  | removeChain chainId, s, n, entry =>
    ∃ chain, s.findChain? chainId = some chain ∧ s.Belongs chain.id n entry
  | _, _, _, _ => False

end Step

/-- A relation between stores that every statement keeps to, be it carried out or refused, as long
as it offers and takes no other rows than these. -/
structure StatementRelation (R : Store → Store → Prop) (Offers : (n : TableName) → n.Row → Prop)
    (Takes : (n : TableName) → Entry n.Row → Prop) : Prop extends StepRelation R where
  /-- Batches that refresh stored rows. -/
  upsert : ∀ n rows, (∀ row ∈ rows, Offers n row) → Moves R (Store.upsert n rows)
  /-- Batches that leave stored rows alone. -/
  insertAbsent : ∀ n rows, (∀ row ∈ rows, Offers n row) → Moves R (Store.insertAbsent n rows)
  delete : ∀ n doomed, (∀ entry, doomed entry = true → Takes n entry) →
    Moves R (Store.delete n doomed)

namespace StatementRelation

variable {R : Store → Store → Prop} {Offers : (n : TableName) → n.Row → Prop}
  {Takes : (n : TableName) → Entry n.Row → Prop}

section Parts

variable (hR : StatementRelation R Offers Takes)

include hR

theorem bind {α β : Type} {x : StoreM α} {f : α → StoreM β} (hx : Moves R x)
    (hf : ∀ answer, Moves R (f answer)) : Moves R (x >>= f) :=
  Moves.bind (R := R) (fun _ _ _ => hR.trans) hx hf

theorem upsertOne (n : TableName) {row : n.Row} (hrow : Offers n row) :
    Moves R (Store.upsertOne n row) := by
  apply hR.bind (hR.upsert n [row] (by simpa using hrow))
  intro entries
  cases entries with
  | nil => exact Moves.throw hR.refl _
  | cons entry rest => exact Moves.pure hR.refl _

/-- A batch keeps to what its statements keep to. -/
theorem upsertAll (n : TableName) {rows : List n.Row} (hrows : ∀ row ∈ rows, Offers n row) :
    Moves R (Store.upsertAll n rows) :=
  Carrier.moves_all hR.toStepRelation fun part hpart =>
    hR.upsert n part fun row hrow => hrows row (TableName.mem_of_mem_statements hpart hrow)

theorem insertAllAbsent (n : TableName) {rows : List n.Row} (hrows : ∀ row ∈ rows, Offers n row) :
    Moves R ((n.statements rows).forM (Store.insertAbsent n)) :=
  Moves.forM hR.refl (fun _ _ _ => hR.trans) fun part hpart =>
    hR.insertAbsent n part fun row hrow => hrows row (TableName.mem_of_mem_statements hpart hrow)

theorem registerChain {chain : Chain} (h : Offers .chains chain) :
    Moves (OnStores R) (BlockArchive.registerChain chain) :=
  WriteM.moves_onFailure (WriteM.moves_query (hR.upsertOne .chains h))

theorem clearMarker (pipeline : Pipeline) {marker : MarkerRow}
    (h : ∀ entry : Entry MarkerRow, entry.row = marker →
      match pipeline with
      | .txs => Takes .failedBlocks entry
      | .events => Takes .failedEventBlocks entry) :
    Moves R (BlockArchive.clearMarker pipeline marker) := by
  cases pipeline with
  | txs => exact hR.delete .failedBlocks _ fun entry he => h entry (of_decide_eq_true he)
  | events => exact hR.delete .failedEventBlocks _ fun entry he => h entry (of_decide_eq_true he)

theorem addMarker (pipeline : Pipeline) {marker : MarkerRow}
    (h : match pipeline with
      | .txs => Offers .failedBlocks marker
      | .events => Offers .failedEventBlocks marker) :
    Moves R (BlockArchive.addMarker pipeline marker) := by
  cases pipeline with
  | txs => exact hR.insertAbsent .failedBlocks [marker] (by simpa using h)
  | events => exact hR.insertAbsent .failedEventBlocks [marker] (by simpa using h)

theorem storeMessages (hmessages : ∀ row, Offers .messages row)
    (hevents : ∀ row, Offers .events row)
    (hattributes : ∀ row, Offers .attributes row) (txes : Std.ExtTreeMap String Id)
    (refs : ResolvedReferences) (txs : List Tx) :
    Moves (OnStores R) (Persist.storeMessages txes refs txs) := by
  have hstep := hR.toStepRelation
  unfold Persist.storeMessages Persist.storeMessagesBy
  -- each level is made of the one before, stored, and told to the log
  refine WriteM.moves_bind hstep (WriteM.moves_ofExcept hstep _) fun rows => ?_
  refine WriteM.moves_bind hstep
    (WriteM.moves_query (hR.upsertAll .messages fun row _ => hmessages row)) fun _ => ?_
  refine WriteM.moves_bind hstep (WriteM.moves_log hstep _) fun _ => ?_
  refine WriteM.moves_bind hstep (WriteM.moves_ofExcept hstep _) fun rows => ?_
  refine WriteM.moves_bind hstep
    (WriteM.moves_query (hR.upsertAll .events fun row _ => hevents row)) fun _ => ?_
  refine WriteM.moves_bind hstep (WriteM.moves_log hstep _) fun _ => ?_
  refine WriteM.moves_bind hstep (WriteM.moves_ofExcept hstep _) fun rows => ?_
  refine WriteM.moves_bind hstep
    (WriteM.moves_query (hR.upsertAll .attributes fun row _ => hattributes row)) fun _ => ?_
  exact WriteM.moves_log hstep _

theorem storeReferences (hmessages : ∀ row, Offers .messageTypes row)
    (hevents : ∀ row, Offers .eventTypes row) (hattributes : ∀ row, Offers .attributeKeys row)
    (data : ReferenceData) : Moves R (Persist.storeReferences data) :=
  hR.bind (hR.upsertAll .messageTypes fun row _ => hmessages row) fun _ =>
    hR.bind (hR.upsertAll .eventTypes fun row _ => hevents row) fun _ =>
      hR.bind (hR.upsertAll .attributeKeys fun row _ => hattributes row) fun _ =>
        Moves.pure hR.refl _

theorem storeAddresses (h : ∀ row, Offers .addresses row) (data : ReferenceData) :
    Moves R (Persist.storeAddresses data) :=
  hR.bind (hR.upsertAll .addresses fun row _ => h row) fun _ => Moves.pure hR.refl _

theorem storeTxes (h : ∀ row, Offers .txes row) (block : Id) (addresses : Std.ExtTreeMap String Id)
    (txs : List Tx) : Moves (OnStores R) (Persist.storeTxes block addresses txs) :=
  WriteM.moves_bind hR.toStepRelation (WriteM.moves_ofExcept hR.toStepRelation _) fun _ =>
    WriteM.moves_query (hR.upsertAll .txes fun row _ => h row)

theorem noteUnknownTime (block : Block) : Moves (OnStores R) (Persist.noteUnknownTime block) := by
  unfold Persist.noteUnknownTime
  split
  · exact WriteM.moves_log hR.toStepRelation _
  · exact WriteM.moves_pure hR.toStepRelation _

theorem warnOfRepeatedHashes (txs unique : List Tx) :
    Moves (OnStores R) (Persist.warnOfRepeatedHashes txs unique) := by
  unfold Persist.warnOfRepeatedHashes
  split
  · exact WriteM.moves_log hR.toStepRelation _
  · exact WriteM.moves_pure hR.toStepRelation _

theorem warnOfDroppedFees (block : Block) (txs : List Tx) :
    Moves (OnStores R) (Persist.warnOfDroppedFees block txs) := by
  unfold Persist.warnOfDroppedFees
  simp only
  split
  · exact WriteM.moves_pure hR.toStepRelation _
  · exact WriteM.moves_log hR.toStepRelation _

omit hR in
theorem ofWrite {α : Type} {step : WriteM α} (h : Moves (OnStores R) step) :
    Moves (OnStores R) (SetupM.ofWrite step) := by
  intro session
  have := h session
  unfold SetupM.ofWrite
  split
  · next answer after he => rwa [he] at this
  · next failure after he => rwa [he] at this

theorem setupBind {α β : Type} {x : SetupM α} {f : α → SetupM β} (hx : Moves (OnStores R) x)
    (hf : ∀ answer, Moves (OnStores R) (f answer)) : Moves (OnStores R) (x >>= f) :=
  Moves.bind (R := OnStores R) (fun _ _ _ => hR.trans) hx hf

theorem setup {config : Config} (h : ∀ chain, config.chain = some chain → Offers .chains chain)
    (connection : Except String Unit) :
    Moves (OnStores R) (BlockArchive.setup connection config) := by
  have hrefl : ∀ a : Session, OnStores R a a := fun a => hR.refl a.store
  unfold BlockArchive.setup
  split
  · exact Moves.throw hrefl _
  · refine hR.setupBind ?_ fun _ => ?_
    · unfold connect
      split
      · exact Moves.pure hrefl _
      · exact Moves.throw hrefl _
    · refine hR.setupBind (ofWrite ?_) fun chain => ?_
      · cases hchain : config.chain with
        | none => exact WriteM.moves_pure hR.toStepRelation _
        | some chain =>
          exact WriteM.moves_bind hR.toStepRelation (hR.registerChain (h chain hchain)) fun _ =>
            WriteM.moves_pure hR.toStepRelation _
      · refine hR.setupBind
          (ofWrite (WriteM.moves_log hR.toStepRelation _)) fun _ => Moves.pure hrefl _

/-- What is taken with a chain is what goes with it in the store as it was. -/
theorem deleteChain {s : Store} {chainId : String}
    (h : ∀ n entry, (Step.removeChain chainId).Takes s n entry → Takes n entry) :
    R s (finalState (Store.deleteChain chainId s)) := by
  unfold Store.deleteChain
  rw [read_bind]
  cases hchain : s.findChain? chainId with
  | none => exact hR.refl s
  | some chain =>
    have hdelete : ∀ (n : TableName) (doomed : Entry n.Row → Prop) [DecidablePred doomed],
        (∀ entry, doomed entry → s.Belongs chain.id n entry) →
        Moves R (Store.delete n fun entry => decide (doomed entry)) :=
      fun n doomed _ hdoomed => hR.delete n _ fun entry he =>
        h n entry ⟨chain, hchain, hdoomed entry (of_decide_eq_true he)⟩
    refine (hR.bind
      (hdelete .attributes (·.row.event ∈ s.eventIds chain.id) fun _ he => he) fun _ => ?_) s
    refine hR.bind (hdelete .events (·.id ∈ s.eventIds chain.id) fun _ he => he) fun _ => ?_
    refine hR.bind (hdelete .messages (·.id ∈ s.messageIds chain.id) fun _ he => he) fun _ => ?_
    refine hR.bind (hdelete .txes (·.id ∈ s.txIds chain.id) fun _ he => he) fun _ => ?_
    refine hR.bind (hdelete .blocks (·.id ∈ s.blockIds chain.id) fun _ he => he) fun _ => ?_
    refine hR.bind (hdelete .failedBlocks (·.row.chain = chain.id) fun _ he => he) fun _ => ?_
    refine hR.bind (hdelete .failedEventBlocks (·.row.chain = chain.id) fun _ he => he) fun _ => ?_
    exact hdelete .chains (·.id = chain.id) fun _ he => he

end Parts

/-! ## Steps -/

/-- What lies below a block is offered to tables of its own. -/
theorem storeBelow (hR : StatementRelation R Offers Takes)
    (hoffers : ∀ n ∈ [TableName.addresses, .txes, .messageTypes, .messages, .eventTypes, .events,
      .attributeKeys, .attributes], ∀ row, Offers n row)
    (block : Block) (txs : List Tx) (blockId : Id) :
    Moves (OnStores R) (Persist.storeBelow block txs blockId) := by
  have hstep := hR.toStepRelation
  unfold Persist.storeBelow Persist.storeBelowBy
  refine WriteM.moves_bind hstep (hR.noteUnknownTime block) fun _ => ?_
  refine WriteM.moves_bind hstep (hR.warnOfRepeatedHashes txs _) fun _ => ?_
  refine WriteM.moves_bind hstep (hR.warnOfDroppedFees block _) fun _ => ?_
  refine WriteM.moves_bind hstep (WriteM.moves_stage (WriteM.moves_query
    (hR.storeAddresses (hoffers .addresses (by decide)) _))) fun addresses => ?_
  refine WriteM.moves_bind hstep (WriteM.moves_log hstep _) fun _ => ?_
  refine WriteM.moves_bind hstep (WriteM.moves_stage
    (hR.storeTxes (hoffers .txes (by decide)) blockId addresses _)) fun txes => ?_
  refine WriteM.moves_bind hstep (WriteM.moves_log hstep _) fun _ => ?_
  refine WriteM.moves_bind hstep (WriteM.moves_stage (WriteM.moves_query
    (hR.storeReferences (hoffers .messageTypes (by decide)) (hoffers .eventTypes (by decide))
      (hoffers .attributeKeys (by decide)) _))) fun refs => ?_
  exact WriteM.moves_stage (hR.storeMessages (hoffers .messages (by decide))
    (hoffers .events (by decide)) (hoffers .attributes (by decide)) _ refs _)

theorem stages {block : Block} {txs : List Tx} {s : Store}
    (hR : StatementRelation R (Step.persist block txs).Offers ((Step.persist block txs).Takes s)) :
    Moves (OnStores R) (Persist.stages block txs) := by
  have hstep := hR.toStepRelation
  unfold Persist.stages Persist.stagesBy
  refine WriteM.moves_bind hstep
    (WriteM.moves_stage (WriteM.moves_query (hR.clearMarker .txs fun _ he => he))) fun _ => ?_
  refine WriteM.moves_bind hstep
    (WriteM.moves_stage (WriteM.moves_query (hR.upsertOne .blocks rfl))) fun blockId => ?_
  refine hR.storeBelow (fun n hn row => ?_) block txs blockId
  cases n <;> first | exact hn | simp at hn

theorem persist {block : Block} {txs : List Tx} {s : Store}
    (hR : StatementRelation R (Step.persist block txs).Offers ((Step.persist block txs).Takes s)) :
    Moves (OnStores R) (BlockArchive.persist block txs) :=
  WriteM.moves_bind hR.toStepRelation
    (WriteM.moves_transaction hR.toStepRelation hR.stages) fun _ =>
      WriteM.moves_log hR.toStepRelation _

theorem markEventsIndexed {block : Block} {s : Store}
    (hR : StatementRelation R (Step.markEventsIndexed block).Offers
      ((Step.markEventsIndexed block).Takes s)) :
    Moves (OnStores R) (BlockArchive.markEventsIndexed block) := by
  have hstep := hR.toStepRelation
  refine WriteM.moves_bind hstep (WriteM.moves_transaction hstep ?_) fun _ =>
    WriteM.moves_log hstep _
  refine WriteM.moves_bind hstep
    (WriteM.moves_stage (WriteM.moves_query (hR.clearMarker .events fun _ he => he))) fun _ => ?_
  exact WriteM.moves_bind hstep
    (WriteM.moves_stage (WriteM.moves_query (hR.upsertOne .blocks rfl))) fun _ =>
      WriteM.moves_pure hstep _

theorem markFailed {pipeline : Pipeline} {chain : Chain} {height : Int64} {s : Store}
    (hR : StatementRelation R (Step.markFailed pipeline chain height).Offers
      ((Step.markFailed pipeline chain height).Takes s)) :
    Moves (OnStores R) (BlockArchive.markFailed pipeline chain height) := by
  have hstep := hR.toStepRelation
  have hchain : (Step.markFailed pipeline chain height).Offers .chains chain := by
    cases pipeline <;> rfl
  refine WriteM.moves_bind hstep (WriteM.moves_transaction hstep ?_) fun id => ?_
  · refine WriteM.moves_bind hstep (hR.registerChain hchain) fun id => ?_
    refine WriteM.moves_bind hstep (WriteM.moves_query (hR.addMarker pipeline ?_)) fun _ =>
      WriteM.moves_pure hstep id
    cases pipeline <;> rfl
  · exact WriteM.moves_log hstep _

theorem upsertDenoms {entries : List DenomWithUnits} {s : Store}
    (hR : StatementRelation R (Step.upsertDenoms entries).Offers
      ((Step.upsertDenoms entries).Takes s)) :
    Moves (OnStores R) (BlockArchive.upsertDenoms entries) := by
  have hstep := hR.toStepRelation
  refine WriteM.moves_bind hstep (WriteM.moves_transaction hstep ?_) fun _ =>
    WriteM.moves_log hstep _
  refine WriteM.moves_bind hstep
    (WriteM.moves_query (hR.upsertAll .denoms fun _ _ => Or.inl rfl)) fun stored => ?_
  refine WriteM.moves_bind hstep (WriteM.moves_ofExcept hstep _) fun units => ?_
  exact WriteM.moves_bind hstep
    (WriteM.moves_query (hR.insertAllAbsent .denomUnits fun _ _ => Or.inr rfl)) fun _ =>
      WriteM.moves_pure hstep _

theorem upsertIbcDenoms {denoms : List IbcDenom} {s : Store}
    (hR : StatementRelation R (Step.upsertIbcDenoms denoms).Offers
      ((Step.upsertIbcDenoms denoms).Takes s)) :
    Moves (OnStores R) (BlockArchive.upsertIbcDenoms denoms) :=
  WriteM.moves_bind hR.toStepRelation
    (WriteM.moves_transaction hR.toStepRelation
      (WriteM.moves_query (hR.upsertAll .ibcDenoms fun _ _ => rfl))) fun _ =>
    WriteM.moves_log hR.toStepRelation _

theorem run {step : Step} {session : Session}
    (hR : StatementRelation R step.Offers (step.Takes session.store)) :
    OnStores R session (finalState (step.run session)) := by
  have hpure : ∀ answer, Moves (OnStores R) (pure answer : SetupM (Option Id)) :=
    Moves.pure fun a => hR.refl a.store
  cases step with
  | migrate => exact hpure _ session
  | registerChain chain =>
    exact hR.setupBind (ofWrite (hR.registerChain rfl)) (fun _ => hpure _) session
  | persist block txs => exact hR.setupBind (ofWrite hR.persist) (fun _ => hpure _) session
  | markEventsIndexed block =>
    exact hR.setupBind (ofWrite hR.markEventsIndexed) (fun _ => hpure _) session
  | markFailed pipeline chain height =>
    exact hR.setupBind (ofWrite hR.markFailed) (fun _ => hpure _) session
  | upsertDenoms entries => exact hR.setupBind (ofWrite hR.upsertDenoms) (fun _ => hpure _) session
  | upsertIbcDenoms denoms =>
    exact hR.setupBind (ofWrite hR.upsertIbcDenoms) (fun _ => hpure _) session
  | setup connection config => exact hR.setup (fun _ h => h) connection session
  | removeChain chainId =>
    have hdelete : R session.store (finalState (Store.deleteChain chainId session.store)) :=
      hR.deleteChain fun _ _ h => h
    cases hresult : Store.deleteChain chainId session.store with
    | ok answer t =>
      have hwrite : SetupM.ofWrite (BlockArchive.removeChain chainId) session =
          .ok answer { session with store := t } := by
        simp only [SetupM.ofWrite, BlockArchive.removeChain, WriteM.transaction, WriteM.query,
          hresult]
      rw [hresult] at hdelete
      rw [Step.run, bind_of_ok hwrite]
      exact hdelete
    | error cause t =>
      have hwrite : SetupM.ofWrite (BlockArchive.removeChain chainId) session =
          .error (.repo (.query cause)) { session with store := session.store.rollback t } := by
        simp only [SetupM.ofWrite, BlockArchive.removeChain, WriteM.transaction, WriteM.query,
          hresult]
      rw [hresult] at hdelete
      rw [Step.run, bind_of_error hwrite]
      exact hR.rollback hdelete

end StatementRelation

/-- What every statement of a step keeps to, the step keeps to. -/
theorem Step.related_next {R : Store → Store → Prop} {step : Step} {s : Store}
    (hR : StatementRelation R step.Offers (step.Takes s)) : R s (step.next s) := by
  have h : OnStores R { store := s } (finalState (step.run { store := s })) :=
    StatementRelation.run hR
  unfold Step.next Step.outcome
  cases he : step.run { store := s } with
  | ok answer after =>
    rw [he] at h
    exact h
  | error cause after =>
    rw [he] at h
    exact h

end BlockArchive
