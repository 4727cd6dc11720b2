/-!
# Denominations

What the amounts of a chain are counted in: the denominations that the chain itself registers, with
the units in which they are shown, and those received from other chains over IBC, which are known by
the hash of the path they took.

## Main definitions

- `Denom`, `DenomUnit`, `DenomWithUnits`: a denomination and its units
- `IbcDenom`: a denomination that came over IBC
-/

namespace BlockArchive

/-- A denomination as the chain registers it. -/
structure Denom where
  /-- The smallest unit, which identifies the denomination. -/
  base : String
  name : String
  symbol : String
deriving DecidableEq, Repr

/-- A unit in which a denomination is shown: ten to the `exponent` of the smallest unit. -/
structure DenomUnit where
  /-- The power of ten. -/
  exponent : Int64
  /-- The name of the unit, which identifies it within its denomination. -/
  name : String
deriving DecidableEq, Repr

/-- A denomination and the units in which it is shown. -/
structure DenomWithUnits where
  denom : Denom
  units : List DenomUnit
deriving DecidableEq, Repr

/-- A denomination that came over IBC. -/
structure IbcDenom where
  /-- The hash of the path, which identifies the denomination. -/
  hash : String
  path : String
  /-- The smallest unit on the chain it comes from. -/
  baseDenom : String
deriving DecidableEq, Repr

end BlockArchive
