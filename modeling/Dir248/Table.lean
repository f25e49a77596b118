import Dir248.Projection
import Dir248.Rules

/-!
# A longest-match table

A table keeps its rules twice: in the rule store, which is exact, and projected onto the
two arrays, which is what lookups read. Every change goes to the rule store first and is
undone there when the arrays cannot follow.

* **`Table`**, **`Table.create`** — a named table and its sizing.
* **`Router`** — a table together with the tracker of the readers that look up in it.
* **`add`**, **`delete`**, **`deleteAll`** — the changes of the rules.
* **`lookup`**, **`present?`**, **`rules`**, **`stats`** — the questions.
* **`bind`**, **`reclaim`**, **`settle`** — how groups come back.
-/

namespace Dir248

/-- A named table: its sizing, its rules, its arrays and the account of its groups. -/
structure Table where
  name : String
  config : Config
  rules : RuleStore
  arrays : Arrays
  pool : Pool

/-- The figures of a table at one moment. -/
structure Stats where
  rules : Nat
  maxRules : Nat
  groupsInUse : Nat
  groups : Nat
  pendingReclaims : Nat
deriving Repr, DecidableEq

namespace Table

/-! ### Tables and their sizing -/

/-- What is wrong with a name and a sizing, the name first. -/
def complaint? (name : String) (config : Config) : Option Complaint :=
  if name.utf8ByteSize = 0 ∨ maxNameBytes < name.utf8ByteSize then some .tableName
  else if config.maxRules = 0 then some .maxRules
  else if maxGroups < config.groups then some .groups
  else none

/-- A table without rules. -/
def empty (name : String) (config : Config) : Table :=
  { name, config, rules := .new config.maxRules, arrays := { groups := config.groups }, pool := {} }

/-- Makes a table, unless its name or its sizing is refused. -/
def create (name : String) (config : Config) : Traced (Except Failure Table) :=
  match complaint? name config with
  | some what => pure (.error (.invalidArgument what))
  | none => do
    Traced.log (.tableCreated name config)
    pure (.ok (empty name config))

/-- The next hop of an address: that of the deepest rule that covers it. -/
def lookup (t : Table) (a : Address) : Option Nat := t.arrays.lookup a

/-- Looks up one address after the other into the places of `out`, as far as both reach. -/
def lookupInto (t : Table) : (addresses : List Address) → (out : List (Option Nat)) →
    List (Option Nat)
  | a :: addresses, _ :: out => t.lookup a :: t.lookupInto addresses out
  | _, out => out

@[simp] theorem length_lookupInto (t : Table) (addresses : List Address)
    (out : List (Option Nat)) : (t.lookupInto addresses out).length = out.length := by
  induction addresses generalizing out with
  | nil => rfl
  | cons a addresses ih =>
    cases out with
    | nil => rfl
    | cons o out => simp [lookupInto, ih]

/-- The next hop of the rule of exactly this prefix, if it is stored. -/
def present? (t : Table) (a : Address) (depth : Nat) : Except Failure (Option Nat) :=
  if ValidDepth depth then
    .ok ((t.rules.find? (.of a depth)).map fun place => (t.rules.cell place).nextHop)
  else .error (.invalidArgument .depth)

/-- The figures of the table. -/
def stats (t : Table) : Stats :=
  { rules := t.rules.size
    maxRules := t.config.maxRules
    groupsInUse := t.pool.inUse
    groups := t.config.groups
    pendingReclaims := t.pool.pending }

/-- The number of groups that are not in use. -/
def freeGroups (t : Table) : Nat := t.config.groups - t.pool.inUse

end Table

/-- A table and the tracker of its readers. Until a reclamation scheme is bound the table
never consults the tracker. -/
structure Router where
  table : Table
  tracker : Tracker

namespace Router

/-! ### Parts -/

/-- What the writer works on beside the rules. -/
def plane (s : Router) : Plane := ⟨s.table.arrays, s.table.pool, s.tracker⟩

/-- The router with another plane. -/
def setPlane (s : Router) (p : Plane) : Router :=
  { table := { s.table with arrays := p.arrays, pool := p.pool }, tracker := p.tracker }

/-- The router with other rules. -/
def setRules (s : Router) (rules : RuleStore) : Router := { s with table := { s.table with rules } }

/-- The router after reader steps. -/
def advance (s : Router) (step : ReaderStep) : Router :=
  { s with tracker := s.tracker.advance step }

/-! ### Adding -/

/-- Takes back what an addition did to the rules. -/
def undo (rules : RuleStore) (depth : Nat) : Stored → Traced RuleStore
  | .inserted place => do
    Traced.require (rules.canRemove place depth) .ruleMove
    pure (rules.remove place depth)
  | .updated place previous => do
    Traced.emit (.fault .updateUndone)
    pure (rules.setNextHop place previous)
  | .unchanged => pure rules

/-- The rule is in the store and in the arrays. -/
def added (s : Router) (r : Rule) (outcome : AddOutcome) :
    Traced (Outcome Router (Except Failure AddOutcome)) := do
  match outcome with
  | .inserted => Traced.publish .ruleAdded
  | _ => pure ()
  Traced.log (.ruleAdded r outcome s.table.rules.size)
  pure ⟨s, .ok outcome⟩

/-- Brings the arrays in line with a rule that the store has taken. -/
def project (s : Router) (r : Rule) (stored : Stored) (outcome : AddOutcome) :
    Traced (Outcome Router (Except Failure AddOutcome)) :=
  if r.route.depth ≤ bucketDepth then do
    let p ← s.plane.insertShallow r
    (s.setPlane p).added r outcome
  else do
    let out ← s.plane.insertDeep r
    let s := s.setPlane out.state
    match out.answer with
    | .ok () => s.added r outcome
    | .error e =>
      let rules ← undo s.table.rules r.route.depth stored
      Traced.log (.ruleRolledBack r.route e)
      pure ⟨s.setRules rules, .error e⟩

/-- Adds a rule whose base is clipped to its depth. -/
def addRule (s : Router) (r : Rule) : Traced (Outcome Router (Except Failure AddOutcome)) := do
  let out ← s.table.rules.add r
  let s := s.setRules out.state
  match out.answer with
  | .error e =>
    Traced.log (.storeFull s.table.rules.capacity)
    pure ⟨s, .error e⟩
  | .ok .unchanged =>
    Traced.log (.ruleKnown r)
    pure ⟨s, .ok .unchanged⟩
  | .ok (.inserted place) => s.project r (.inserted place) .inserted
  | .ok (.updated place previous) => s.project r (.updated place previous) .updated

/-- Adds the rule of the given depth around an address, or changes its next hop. -/
def add (s : Router) (a : Address) (depth nextHop : Nat) :
    Traced (Outcome Router (Except Failure AddOutcome)) :=
  if ¬ValidDepth depth then pure ⟨s, .error (.invalidArgument .depth)⟩
  else if maxNextHop < nextHop then pure ⟨s, .error (.invalidArgument .nextHop)⟩
  else s.addRule ⟨.of a depth, nextHop⟩

/-! ### Deleting -/

/-- The route of the deepest rule around a prefix that is shallower. -/
def cover? (rules : RuleStore) (route : Prefix) : Option Route :=
  (rules.covering? route.base route.depth).map fun found =>
    ⟨found.2, (rules.cell found.1).nextHop⟩

/-- Brings the arrays in line with the removal of a rule. -/
def withdraw (s : Router) (route : Prefix) (cover : Option Route) (meanwhile : Meanwhile) :
    Traced (Outcome Router (Except Failure Unit)) :=
  if route.depth ≤ bucketDepth then do
    let p ← s.plane.removeShallow route cover
    pure ⟨s.setPlane p, .ok ()⟩
  else do
    let out ← s.plane.removeDeep route cover meanwhile
    pure ⟨s.setPlane out.state, out.answer⟩

/-- Deletes the rule of a prefix that sits at a place of the store. -/
def deleteAt (s : Router) (place : Nat) (route : Prefix) (meanwhile : Meanwhile) :
    Traced (Outcome Router (Except Failure Unit)) := do
  Traced.require (s.table.rules.canRemove place route.depth) .ruleMove
  let rules := s.table.rules.remove place route.depth
  Traced.publish .ruleDeleted
  let cover := cover? rules route
  Traced.log (.ruleDeleted route cover rules.size)
  (s.setRules rules).withdraw route cover meanwhile

/-- Deletes the rule of the given depth around an address. Its addresses fall to the deepest
rule that is left around them. When the defer queue cannot take the rule's group the rule
is gone all the same. -/
def delete (s : Router) (a : Address) (depth : Nat) (meanwhile : Meanwhile) :
    Traced (Outcome Router (Except Failure Unit)) :=
  if ¬ValidDepth depth then pure ⟨s, .error (.invalidArgument .depth)⟩
  else
    match s.table.rules.find? (.of a depth) with
    | none => pure ⟨s, .error .notFound⟩
    | some place => s.deleteAt place (.of a depth) meanwhile

/-- Drops every rule and every group. The first level goes first, so that no reader finds
its way to a group that is about to be wiped. -/
def deleteAll (s : Router) (meanwhile : Meanwhile) : Traced Router := do
  let removed := s.table.rules.size
  Traced.logIf s.table.rules.isEmpty (.nothingToClear s.table.name)
  let arrays ← s.table.arrays.clearBuckets
  let p ← Plane.reset { s.plane with arrays } meanwhile
  Traced.log (.tableCleared s.table.name removed)
  pure ((s.setRules s.table.rules.clear).setPlane p)

/-! ### Reclamation -/

/-- Binds a reclamation scheme. -/
def bind (s : Router) (mode : ReclaimMode) : Traced (Outcome Router (Except Failure Unit)) := do
  let out ← s.table.pool.bind mode s.table.config.groups
  pure ⟨{ s with table := { s.table with pool := out.state } }, out.answer⟩

/-- One pass over the defer queue: how many groups the pass freed. -/
def reclaim (s : Router) : Traced (Outcome Router Nat) := do
  let out ← s.plane.reclaim
  pure ⟨s.setPlane out.state, out.answer⟩

/-- Waits for the readers and frees every group that is still pending, as a table does when
it is freed. -/
def settle (s : Router) (meanwhile : Meanwhile) : Traced Router := do
  let out ← s.plane.drain meanwhile
  Traced.log (.tableFreed s.table.name out.answer)
  pure (s.setPlane out.state)

end Router

end Dir248
