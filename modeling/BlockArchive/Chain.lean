/-!
# Chains

A chain is known by its text id, such as `cosmoshub-4`; its name is for people to read.

## Main definitions

- `Chain`: the id and the name of a chain
- `Id`: the key under which a stored row is referred to
-/

namespace BlockArchive

/-- The key that the store gives to a row, and by which other rows and callers refer to it. -/
abbrev Id := Int

/-- A chain: the text that identifies it and its name. -/
structure Chain where
  /-- The text that identifies the chain. -/
  chainId : String
  name : String
deriving DecidableEq, Repr

end BlockArchive
