import BlockArchive.Proofs.Denoms
import BlockArchive.Proofs.Persist.Refinement
import BlockArchive.Proofs.Writing

/-!
# What writing steps do

A writing step either cannot be carried out in any store, or it can in every store that has the
chain whose id it is told. Then what the store tells afterwards is a function of what it told
before. So what comes of a step does not depend on which ids the rows happen to have.

## Main definitions

- `Step.Writes`: the step is a writing step
- `Step.chainId?`, `Step.Sendable`: the chain that a step is told, and what it needs besides
- `Step.layOver`: the step laid over what a store tells

## Main statements

- `Step.succeeds_iff`: when a writing step succeeds
- `Step.view_next`: what the store tells then
- `Step.rows_next`: a writing step that fails changes no row
-/

namespace BlockArchive

open Persist

variable {s : Store}

/-! ## The events of a block -/

/-- The store after the events of a block have been indexed. -/
def Store.withEvents (s : Store) (block : Block) : Store :=
  (s.unmarked .events block.marker).offer .blocks [block.row .events]

/-- The events of a block are marked as indexed unless its time cannot be stored or its chain is not
there. -/
theorem ends_markEventsIndexed (hs : s.Sound) (block : Block) {session : Session}
    (ht : session.store = s) :
    Ends (fun cause failure => failure = .query cause) (markEventsIndexed block) session
      ((timeFault? block).or (chainFault? s block))
      fun _ after => after.store = s.withEvents block := by
  subst ht
  unfold markEventsIndexed
  refine Ends.last (Q := fun _ after => after.store = session.store.withEvents block)
    (WriteM.ends_transaction ?_) fun _ _ after hafter =>
      (WriteM.ends_log _).mono fun _ _ _ hlog => hlog.trans hafter
  have hclear := ends_clearMarker .events block.marker session.store
  apply (WriteM.ends_stage (WriteM.ends_query_cause hclear)).next
  intro _ middle hmiddle
  have hblock := ends_block .events block (hs.unmarked .events block.marker)
  have hchain : chainFault? (session.store.unmarked .events block.marker) block =
      chainFault? session.store block := rfl
  rw [hchain, ← hmiddle] at hblock
  apply (WriteM.ends_stage (WriteM.ends_query_cause hblock)).last
  rintro - _ after ⟨hafter, _⟩
  refine Ends.pure ?_
  rw [hafter, hmiddle]
  rfl

/-! ## Steps laid over a view -/

/-- There is a store that takes the block. -/
def Persist.Storable (block : Block) (txs : List Tx) : Prop :=
  ∃ s, fault? s block txs = none

/-- A store takes a block that some store takes, if the chain is there. -/
theorem Persist.fault?_eq_none_iff {block : Block} {txs : List Tx} :
    fault? s block txs = none ↔ Storable block txs ∧ block.chain ∈ s.chains.rows := by
  constructor
  · intro h
    exact ⟨⟨s, h⟩, (fault?_eq_none.1 h).2.chain⟩
  · rintro ⟨⟨t, ht⟩, hchain⟩
    obtain ⟨haccepted, hfits⟩ := fault?_eq_none.1 ht
    exact fault?_eq_none.2 ⟨haccepted, { hfits with chain := hchain }⟩

/-- The text of the chain that an id names. -/
def Store.chainText (s : Store) (id : Id) : String :=
  ((s.chains.rows[id]?).map (·.chainId)).getD ""

namespace Step

/-- The step writes what it is given; the others set the archive up or take a chain out of it. -/
def Writes : Step → Prop
  | migrate | setup _ _ | removeChain _ => False
  | registerChain _ | persist _ _ | markEventsIndexed _ | markFailed _ _ _ | upsertDenoms _
  | upsertIbcDenoms _ => True

/-- The chain that the step is told by its id. -/
def chainId? : Step → Option Id
  | persist block _ | markEventsIndexed block => some block.chain
  | _ => none

/-- What the step is given can be stored, if the chain that it is told is there. -/
def Sendable : Step → Prop
  | registerChain chain | markFailed _ chain _ => TableName.refusal? .chains chain = none
  | persist block txs => Storable block (Tx.uniqueByHash txs)
  | markEventsIndexed block => timeFault? block = none
  | upsertDenoms entries => denomFault? entries = none
  | upsertIbcDenoms denoms => ibcDenomFault? denoms = none
  | _ => False

/-- The step laid over what a store tells, given the texts of the chains. -/
def layOver (text : Id → String) (view : View) : Step → View
  | registerChain chain => view.register chain
  | persist block txs => view.persist (text block.chain) block txs
  | markEventsIndexed block =>
    (view.unmark .events (text block.chain) block.height).index .events (text block.chain) block
  | markFailed pipeline chain height => (view.register chain).mark pipeline chain.chainId height
  | upsertDenoms entries => view.upsertDenoms entries
  | upsertIbcDenoms denoms => view.upsertIbcDenoms denoms
  | _ => view

variable {step : Step}

/-- A writing step succeeds if what it is given can be stored and the chain that it is told is
there. -/
theorem succeeds_iff (hs : s.Sound) (hw : step.Writes) :
    step.Succeeds s ↔ step.Sendable ∧ ∀ id ∈ step.chainId?, id ∈ s.chains.rows := by
  cases step with
  | migrate | setup | removeChain => cases hw
  | registerChain chain =>
    rw [((does_registerChain chain).ends (ends_registerChain hs chain rfl)).1]
    simp [Sendable, chainId?]
  | persist block txs =>
    rw [succeeds_persist_iff hs, fault?_eq_none_iff]
    simp [Sendable, chainId?]
  | markEventsIndexed block =>
    rw [((does_markEventsIndexed block).ends (ends_markEventsIndexed hs block rfl)).1]
    simp [Sendable, chainId?, chainFault?]
  | markFailed pipeline chain height =>
    rw [((does_markFailed pipeline chain height).ends
      (ends_markFailed hs pipeline chain height rfl)).1]
    simp [Sendable, chainId?]
  | upsertDenoms entries =>
    rw [((does_upsertDenoms entries).ends (ends_upsertDenoms hs entries rfl)).1]
    simp [Sendable, chainId?]
  | upsertIbcDenoms denoms =>
    rw [((does_upsertIbcDenoms denoms).ends (ends_upsertIbcDenoms hs denoms rfl)).1]
    simp [Sendable, chainId?]

end Step

theorem Store.chainText_eq {id : Id} {chain : Chain} (h : s.chains.rows[id]? = some chain) :
    s.chainText id = chain.chainId := by
  rw [chainText, h]
  rfl

theorem Store.view_withEvents (hs : s.Sound) {block : Block} {chain : Chain}
    (hchain : s.chains.rows[block.chain]? = some chain) :
    (s.withEvents block).view =
      (s.view.unmark .events chain.chainId block.height).index .events chain.chainId block := by
  have hentry : (⟨block.chain, chain⟩ : Entry Chain) ∈ s.chains.entries := Table.mem_entries.2 hchain
  have hunmarked : (s.unmarked .events block.marker).view =
      s.view.unmark .events chain.chainId block.height := by
    apply view_unmarked hs hentry
  rw [← hunmarked]
  exact view_offer_block (hs.unmarked .events block.marker) hchain

theorem Store.view_marked (hs : s.Sound) (pipeline : Pipeline) (chain : Chain) (height : Int64) :
    (s.marked pipeline chain height).view =
      (s.view.register chain).mark pipeline chain.chainId height := by
  obtain ⟨entry, hfind⟩ := exists_registered hs chain
  obtain ⟨hentry, hkey⟩ := mem_of_find? hfind
  have htext : entry.row.chainId = chain.chainId := Key.text.inj hkey
  rw [marked_eq hfind, view_withMarker (sound_registered hs chain) hentry, htext, view_offer_chain hs]

namespace Step

variable {step : Step}

/-- What a store tells after a writing step is what it told before with the step laid over it. -/
theorem view_next (hs : s.Sound) (hw : step.Writes) (hok : step.Succeeds s) :
    (step.next s).view = step.layOver s.chainText s.view := by
  have hchain : ∀ id ∈ step.chainId?, ∃ chain, s.chains.rows[id]? = some chain := by
    intro id hid
    rw [← Option.isSome_iff_exists, ← Std.ExtTreeMap.mem_iff_isSome_getElem?]
    exact ((succeeds_iff hs hw).1 hok).2 id hid
  cases step with
  | migrate | setup | removeChain => cases hw
  | registerChain chain =>
    obtain ⟨_, after, ⟨hafter, _⟩, hnext⟩ :=
      (does_registerChain chain).of_succeeds (ends_registerChain hs chain rfl) hok
    rw [hnext, hafter, Store.view_offer_chain hs, layOver]
  | persist block txs =>
    obtain ⟨chain, hchain⟩ := hchain block.chain rfl
    have hfits := (fault?_eq_none.1 ((succeeds_persist_iff hs).1 hok)).2
    have hfault := levelFault?_eq_none.2 ⟨hfits.messages, hfits.events, hfits.attributes⟩
    rw [view_of_stored hs (stored_of_succeeds hs hok) hfault hchain, layOver,
      Store.chainText_eq hchain]
  | markEventsIndexed block =>
    obtain ⟨chain, hchain⟩ := hchain block.chain rfl
    obtain ⟨_, after, hafter, hnext⟩ :=
      (does_markEventsIndexed block).of_succeeds (ends_markEventsIndexed hs block rfl) hok
    rw [hnext, hafter, Store.view_withEvents hs hchain, layOver, Store.chainText_eq hchain]
  | markFailed pipeline chain height =>
    obtain ⟨_, after, hafter, hnext⟩ := (does_markFailed pipeline chain height).of_succeeds
      (ends_markFailed hs pipeline chain height rfl) hok
    rw [hnext, hafter, Store.view_marked hs, layOver]
  | upsertDenoms entries =>
    obtain ⟨_, after, hafter, hnext⟩ :=
      (does_upsertDenoms entries).of_succeeds (ends_upsertDenoms hs entries rfl) hok
    rw [hnext, hafter, Store.view_withDenoms hs, layOver]
  | upsertIbcDenoms denoms =>
    obtain ⟨_, after, hafter, hnext⟩ :=
      (does_upsertIbcDenoms denoms).of_succeeds (ends_upsertIbcDenoms hs denoms rfl) hok
    rw [hnext, hafter, Store.view_withIbcDenoms hs, layOver]

end Step

/-! ## Steps that fail -/

namespace Store

theorem rows_skip (s : Store) (n : TableName) (count : Nat) (m : TableName) :
    ((s.set n ((s.get n).skip count)).get m).rows = (s.get m).rows := by
  by_cases hm : m = n
  · subst hm
    rw [get_set_self]
    rfl
  · rw [get_set_of_ne s _ hm]

/-- A statement of one row is refused and changes no row, or it tells one row. -/
theorem upsertOne_cases (s : Store) (n : TableName) (row : n.Row) :
    (∃ cause count, upsertOne n row s = .error cause (s.set n ((s.get n).skip count))) ∨
      upsertOne n row s =
        .ok ((s.get n).offer n.key n.refresh row).1.id (s.offer n [row]) := by
  have hoffered : (s.get n).offerBatch n.key n.refresh [row] =
      (s.get n).offerAll n.key n.refresh [row] := Table.offerBatch_singleton ..
  unfold upsertOne Carrier.one
  rcases upsert_cases_of_offerBatch_eq fun _ => hoffered with ⟨cause, count, -, h⟩ | ⟨-, -, h⟩
  · exact Or.inl ⟨cause, count, bind_of_error h⟩
  · rw [bind_of_ok h, told_singleton]
    exact Or.inr rfl

theorem ok_of_upsertOne {n : TableName} {row : n.Row} {t : Store} {id : Id}
    (h : upsertOne n row s = .ok id t) :
    id = ((s.get n).offer n.key n.refresh row).1.id ∧ t = s.offer n [row] := by
  rcases upsertOne_cases s n row with ⟨cause, count, hend⟩ | hend
  · rw [hend] at h
    cases h
  · rw [hend] at h
    cases h
    exact ⟨rfl, rfl⟩

theorem rows_of_upsertOne {n : TableName} {row : n.Row} {t : Store} {cause : QueryError}
    (h : upsertOne n row s = .error cause t) (m : TableName) : (t.get m).rows = (s.get m).rows := by
  rcases upsertOne_cases s n row with ⟨cause, count, hend⟩ | hend
  · rw [hend] at h
    cases h
    exact rows_skip s n count m
  · rw [hend] at h
    cases h

end Store

/-- A chain that is registered is offered, and the id under which it is stored is told. -/
theorem ok_of_registerChain {chain : Chain} {session after : Session} {id : Id}
    (h : registerChain chain session = .ok id after) :
    id = ((session.store.get .chains).offer TableName.chains.key TableName.chains.refresh
        chain).1.id ∧
      after.store = session.store.offer .chains [chain] ∧ after.log = session.log := by
  obtain ⟨hquery, hlog⟩ := WriteM.ok_of_query (WriteM.ok_of_onFailure h)
  obtain ⟨hid, hstore⟩ := Store.ok_of_upsertOne hquery
  exact ⟨hid, hstore, hlog⟩

theorem rows_of_registerChain {chain : Chain} {session after : Session} {failure : Failure}
    (h : registerChain chain session = .error failure after) (m : TableName) :
    (after.store.get m).rows = (session.store.get m).rows := by
  unfold registerChain WriteM.onFailure WriteM.query at h
  cases hupsert : Store.upsertOne .chains chain session.store with
  | ok id t => simp [hupsert] at h
  | error cause t =>
    simp only [hupsert] at h
    cases h
    exact Store.rows_of_upsertOne hupsert m

/-- A writing step that fails changes no row of any table. -/
theorem Step.rows_next {step : Step} (hw : step.Writes) (hfails : ¬ step.Succeeds s)
    (n : TableName) : ((step.next s).get n).rows = (s.get n).rows := by
  have hrollback : ∀ t, step.next s = s.rollback t →
      ((step.next s).get n).rows = (s.get n).rows := by
    intro t ht
    rw [ht, Store.get_rollback]
    rfl
  cases step with
  | migrate | setup | removeChain => cases hw
  | registerChain chain =>
    cases hpart : BlockArchive.registerChain chain { store := s } with
    | ok id after => exact absurd ((does_registerChain chain).of_ok hpart).1 hfails
    | error failure after =>
      rw [((does_registerChain chain).of_error hpart).2]
      exact rows_of_registerChain hpart n
  | persist block txs =>
    obtain ⟨t, ht⟩ := (does_persist block txs).rollback hfails
    exact hrollback t ht
  | markEventsIndexed block =>
    obtain ⟨t, ht⟩ := (does_markEventsIndexed block).rollback hfails
    exact hrollback t ht
  | markFailed pipeline chain height =>
    obtain ⟨t, ht⟩ := (does_markFailed pipeline chain height).rollback hfails
    exact hrollback t ht
  | upsertDenoms entries =>
    obtain ⟨t, ht⟩ := (does_upsertDenoms entries).rollback hfails
    exact hrollback t ht
  | upsertIbcDenoms denoms =>
    obtain ⟨t, ht⟩ := (does_upsertIbcDenoms denoms).rollback hfails
    exact hrollback t ht

theorem Store.eq_rollback {t : Store} (h : ∀ n, (t.get n).rows = (s.get n).rows) :
    t = s.rollback t := by
  apply Store.ext_get
  intro n
  rw [Store.get_rollback]
  exact Table.ext (h n) rfl

/-- What is told depends on the rows alone. -/
theorem Store.view_rollback (s t : Store) : (s.rollback t).view = s.view := by
  apply View.ext
  case texts =>
    funext kind
    cases kind <;> rfl
  case marked =>
    funext pipeline
    cases pipeline <;> rfl
  all_goals rfl

theorem Step.view_next_of_fails {step : Step} (hw : step.Writes) (hfails : ¬ step.Succeeds s) :
    (step.next s).view = s.view := by
  rw [Store.eq_rollback (Step.rows_next hw hfails), Store.view_rollback]

end BlockArchive
