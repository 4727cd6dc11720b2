import BlockArchive.Session
import BlockArchive.Store.Cut

/-!
# Chains and denominations

Chains and denominations are registered once and then referred to. A chain keeps the name it was
first registered with. A denomination takes the last name and sign that it was given, and keeps
every unit it ever had as it first was.

## Main definitions

- `registerChain`: the id of a chain, which is stored if it is not yet
- `upsertDenomsBy`, `upsertIbcDenomsBy`: the steps below, by statements that a carrier carries out
- `upsertDenoms`: stores denominations with their units
- `upsertIbcDenoms`: stores denominations that came over IBC
-/

namespace BlockArchive

/-- The id of a chain, which is stored if it is not yet. -/
def registerChain (chain : Chain) : WriteM Id :=
  (WriteM.query (Store.upsertOne .chains chain)).onFailure (.failedChain chain.chainId)

namespace DenomWithUnits

/-- The last entry of each denomination, in ascending order of the smallest units. -/
def uniqueByBase (entries : List DenomWithUnits) : List DenomWithUnits :=
  (Std.ExtTreeMap.ofList (entries.map fun entry => (entry.denom.base, entry))).values

/-- The last unit of each name, in ascending order of the names. -/
def uniqueUnits (entry : DenomWithUnits) : List DenomUnit :=
  (Std.ExtTreeMap.ofList (entry.units.map fun unit => (unit.name, unit))).values

/-- The rows of the units of a denomination, given the ids of the stored denominations. -/
def unitRows (ids : Std.ExtTreeMap String Id) (entry : DenomWithUnits) :
    Except Failure (List DenomUnitRow) :=
  match ids[entry.denom.base]? with
  | some denom =>
    .ok (entry.uniqueUnits.map fun unit => { denom, exponent := unit.exponent, name := unit.name })
  | none => .error (.missingGeneratedKey "denom" entry.denom.base)

end DenomWithUnits

/-- The last entry of each hash, in ascending order of the hashes. -/
def IbcDenom.uniqueByHash (denoms : List IbcDenom) : List IbcDenom :=
  (Std.ExtTreeMap.ofList (denoms.map fun denom => (denom.hash, denom))).values

/-- Stores denominations with their units. Of entries for one denomination the last counts; a unit
that is stored stays as it is. -/
def upsertDenomsBy (carry : Carrier) (carryAbsent : (n : TableName) → List n.Row → StoreM Unit)
    (entries : List DenomWithUnits) : WriteM Unit := do
  let unique := DenomWithUnits.uniqueByBase entries
  let ids ← WriteM.transaction do
    let stored ← WriteM.query (carry.all .denoms (unique.map (·.denom)))
    let ids := Entry.idsBy Denom.base stored
    let units ← WriteM.ofExcept (unique.mapM (·.unitRows ids))
    WriteM.query ((TableName.denomUnits.statements units.flatten).forM (carryAbsent .denomUnits))
    return ids
  WriteM.log (.upsertedDenoms ids.size)

/-- Stores denominations that came over IBC. Of entries with one hash the last counts. -/
def upsertIbcDenomsBy (carry : Carrier) (denoms : List IbcDenom) : WriteM Unit := do
  let stored ← WriteM.transaction do
    WriteM.query (carry.all .ibcDenoms (IbcDenom.uniqueByHash denoms))
  WriteM.log (.upsertedIbcDenoms stored.length)

/-- Stores denominations with their units. -/
def upsertDenoms : List DenomWithUnits → WriteM Unit :=
  upsertDenomsBy Store.upsert Store.insertAbsent

/-- Stores denominations that came over IBC. -/
def upsertIbcDenoms : List IbcDenom → WriteM Unit :=
  upsertIbcDenomsBy Store.upsert

end BlockArchive
