import Dir248.Prefix

/-!
# Rules

* **`Rule`** — a prefix and the next hop of the addresses it stands for.
* **`AddOutcome`** — what adding a rule did.
-/

namespace Dir248

/-- Addresses under the prefix go to the next hop, unless a deeper rule covers them. -/
structure Rule where
  route : Prefix
  nextHop : Nat
deriving Repr, DecidableEq, Inhabited

/-- What a successful addition did to the rules. -/
inductive AddOutcome where
  /-- A new rule was stored. -/
  | inserted
  /-- The rule was there with another next hop, which was replaced. -/
  | updated
  /-- The very rule was there. -/
  | unchanged
deriving Repr, DecidableEq, Inhabited

end Dir248
