import BlockArchive.Chain
import BlockArchive.Denom
import BlockArchive.Wire.Record

/-!
# Written chains and denominations

## Main definitions

- `Chain.ofJson?`, `Chain.toJson`: a chain
- `Denom.ofJson?`, `DenomUnit.ofJson?`, `DenomWithUnits.ofJson?`: a denomination with its units; the
  units may be left out
- `IbcDenom.ofJson?`, `IbcDenom.toJson`: a denomination that came over IBC
-/

namespace BlockArchive

namespace Chain

/-- The chain that the document stands for. -/
def ofJson? (j : Json) : Option Chain := do
  let record ← Record.ofJson? 2 j
  return {
    chainId := ← record.required ⟨0, "chain_id"⟩ Json.str?
    name := ← record.required ⟨1, "name"⟩ Json.str? }

/-- The chain as it is written. -/
def toJson (chain : Chain) : Json :=
  .obj [("chain_id", .str chain.chainId), ("name", .str chain.name)]

end Chain

namespace Denom

/-- The denomination that the document stands for. -/
def ofJson? (j : Json) : Option Denom := do
  let record ← Record.ofJson? 3 j
  return {
    base := ← record.required ⟨0, "base"⟩ Json.str?
    name := ← record.required ⟨1, "name"⟩ Json.str?
    symbol := ← record.required ⟨2, "symbol"⟩ Json.str? }

/-- The denomination as it is written. -/
def toJson (denom : Denom) : Json :=
  .obj [("base", .str denom.base), ("name", .str denom.name), ("symbol", .str denom.symbol)]

end Denom

namespace DenomUnit

/-- The unit that the document stands for. -/
def ofJson? (j : Json) : Option DenomUnit := do
  let record ← Record.ofJson? 2 j
  return {
    exponent := ← record.required ⟨0, "exponent"⟩ Json.int64?
    name := ← record.required ⟨1, "name"⟩ Json.str? }

/-- The unit as it is written. -/
def toJson (unit : DenomUnit) : Json :=
  .obj [("exponent", .ofInt64 unit.exponent), ("name", .str unit.name)]

end DenomUnit

namespace DenomWithUnits

/-- The denomination and the units that the document stands for. -/
def ofJson? (j : Json) : Option DenomWithUnits := do
  let record ← Record.ofJson? 2 j
  return {
    denom := ← record.required ⟨0, "denom"⟩ Denom.ofJson?
    units := ← record.defaulted ⟨1, "units"⟩ (Json.list? DenomUnit.ofJson?) [] }

/-- The denomination and its units as they are written. -/
def toJson (entry : DenomWithUnits) : Json :=
  .obj [("denom", entry.denom.toJson), ("units", .arr (entry.units.map DenomUnit.toJson))]

end DenomWithUnits

namespace IbcDenom

/-- The denomination that the document stands for. -/
def ofJson? (j : Json) : Option IbcDenom := do
  let record ← Record.ofJson? 3 j
  return {
    hash := ← record.required ⟨0, "hash"⟩ Json.str?
    path := ← record.required ⟨1, "path"⟩ Json.str?
    baseDenom := ← record.required ⟨2, "base_denom"⟩ Json.str? }

/-- The denomination as it is written. -/
def toJson (denom : IbcDenom) : Json :=
  .obj [("hash", .str denom.hash), ("path", .str denom.path), ("base_denom", .str denom.baseDenom)]

end IbcDenom

end BlockArchive
