/-!
# Sizes and limits

The fixed sizes of a two-level lookup table for 32-bit addresses (24 bits resolve in the
first level, the last 8 in a group of the second), the limits on what callers may ask
for, and the sizing of one table.

* **`maxDepth`**, **`bucketDepth`**, **`bucketCount`**, **`groupSize`** — the geometry.
* **`maxGroups`**, **`maxNextHop`**, **`maxNameBytes`** — what a table admits.
* **`Config`** — how many rules and groups one table may hold.
-/

-- Powers and sums of numbers are read in one way, whatever algebra is in scope beside them.
attribute [instance (10000), default_instance 10000] instPowNat
attribute [instance (10000)] Zero.ofOfNat0

namespace Dir248

/-! ### Geometry -/

/-- The deepest prefix, which is the number of address bits. -/
abbrev maxDepth : Nat := 32

/-- Prefixes up to this depth resolve in the first level alone. -/
abbrev bucketDepth : Nat := 24

/-- The number of first-level slots, one for each value of the leading 24 bits. -/
abbrev bucketCount : Nat := 2 ^ 24

/-- The number of second-level slots of one group, one for each value of the last byte. -/
abbrev groupSize : Nat := 256

/-! ### Limits -/

/-- A group number shares the 24-bit value field of a first-level slot. -/
abbrev maxGroups : Nat := 2 ^ 24

/-- The largest next hop that fits the value field. -/
abbrev maxNextHop : Nat := 2 ^ 24 - 1

/-- The longest table name, counted in bytes of its UTF-8 form. -/
abbrev maxNameBytes : Nat := 32

/-- How many items a reclaim pass frees at most when its queue was not told otherwise. -/
abbrev defaultBatch : Nat := 16

/-! ### Sizing -/

/-- How many rules and how many second-level groups a table may hold. -/
structure Config where
  maxRules : Nat := 1024
  groups : Nat := 256
deriving Repr, DecidableEq, Inhabited

end Dir248
