import BlockArchive.Persist.Block
import BlockArchive.Removal
import BlockArchive.Setup

/-!
# Steps

The steps by which the archive changes, as data, and what becomes of a store when one is carried
out. A store is reached by a run of steps from the empty store, whether they succeed or fail.

## Main definitions

- `Step`: the steps
- `Outcome`: the answer of a step, the store after it and what it told the log
- `Step.outcome`: carrying out a step

## Design notes

A step is carried out alone and to its end. How connections are kept and shared is left out, and so
is a step that is cut off halfway. The schema is there from the start, as the types of the tables,
so `migrate` and `setup` have nothing to create.
-/

namespace BlockArchive

/-- A step that may change the store. -/
inductive Step where
  /-- Creates what is not there of the schema. -/
  | migrate
  | registerChain (chain : Chain)
  /-- Stores a block with its transactions. -/
  | persist (block : Block) (txs : List Tx)
  /-- Stores that the events of a block are indexed. -/
  | markEventsIndexed (block : Block)
  /-- Marks a height as one to be tried again. -/
  | markFailed (pipeline : Pipeline) (chain : Chain) (height : Int64)
  /-- Stores denominations with their units. -/
  | upsertDenoms (entries : List DenomWithUnits)
  /-- Stores denominations that came over IBC. -/
  | upsertIbcDenoms (denoms : List IbcDenom)
  /-- Sets the archive up, where connecting to the store comes to this. -/
  | setup (connection : Except String Unit) (config : Config)
  | removeChain (chainId : String)

/-- What comes of a step. -/
structure Outcome where
  /-- The id of the chain that the step is about where it tells one, or why it has failed. -/
  answer : Except ArchiveError (Option Id)
  store : Store
  /-- What the step told the log. -/
  log : List LogEvent

namespace Step

/-- The step as a change of a session. -/
def run : Step → SetupM (Option Id)
  | migrate => return none
  | registerChain chain => return some (← SetupM.ofWrite (BlockArchive.registerChain chain))
  | persist block txs => do
    SetupM.ofWrite (BlockArchive.persist block txs)
    return none
  | markEventsIndexed block => do
    SetupM.ofWrite (BlockArchive.markEventsIndexed block)
    return none
  | markFailed pipeline chain height => do
    SetupM.ofWrite (BlockArchive.markFailed pipeline chain height)
    return none
  | upsertDenoms entries => do
    SetupM.ofWrite (BlockArchive.upsertDenoms entries)
    return none
  | upsertIbcDenoms denoms => do
    SetupM.ofWrite (BlockArchive.upsertIbcDenoms denoms)
    return none
  | setup connection config => BlockArchive.setup connection config
  | removeChain chainId => do
    SetupM.ofWrite (BlockArchive.removeChain chainId)
    return none

/-- Carries out the step on a store. -/
def outcome (step : Step) (store : Store) : Outcome :=
  match step.run { store } with
  | .ok answer after => { answer := .ok answer, store := after.store, log := after.log }
  | .error cause after => { answer := .error cause, store := after.store, log := after.log }

end Step

end BlockArchive
