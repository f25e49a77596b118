import Dir248.Entry
import Dir248.Failure
import Dir248.Grace.Basic
import Dir248.Rule
import Dir248.Text.Hex

/-!
# Log notes

What a table tells its log, as data: one constructor for each remark, with a level and a
wording. Operations emit notes and never text.

* **`Note`** — the remarks.
* **`Note.level`**, **`Note.text`** — how serious a remark is, and how it reads.
-/

namespace Dir248

/-- How serious a note is. -/
inductive Level where
  | error
  | warn
  | info
  | debug
  | trace
deriving Repr, DecidableEq, Inhabited

/-- The name of a level. -/
def Level.text : Level → String
  | error => "ERROR"
  | warn => "WARN"
  | info => "INFO"
  | debug => "DEBUG"
  | trace => "TRACE"

/-- One remark. -/
inductive Note where
  -- the rule store
  | ruleStored (p : Prefix) (index : Nat)
  -- readers and grace periods
  | readerRegistered (slot : Nat)
  | readerSlotsTaken (slots : Nat)
  | readerUnregistered (slot : Nat)
  | graceComplete (token : Nat)
  -- the defer queue
  | queueFull (length item : Nat)
  | itemDeferred (item token : Nat)
  | itemsReclaimed (freed pending : Nat)
  | queueDrained (freed : Nat)
  -- the groups
  | reclamationBound (mode : ReclaimMode)
  | poolExhausted
  | groupAllocated (group inUse : Nat)
  | noFreeGroup (groups pending : Nat)
  | deferFailed (group : Nat)
  -- the two arrays
  | projected (p : Prefix) (slots : Nat)
  | groupLinked (group bucket : Nat)
  | groupMissing (p : Prefix) (bucket : Nat)
  | groupUnlinked (group bucket : Nat) (left : Entry)
  -- tables and their names
  | tableCreated (name : String) (config : Config)
  | nameTaken (name : String)
  | nameReleased (name : String)
  | tableFreed (name : String) (settled : Nat)
  -- changes of the rules
  | storeFull (capacity : Nat)
  | ruleKnown (r : Rule)
  | ruleRolledBack (p : Prefix) (reason : Failure)
  | ruleAdded (r : Rule) (outcome : AddOutcome) (rules : Nat)
  | ruleDeleted (p : Prefix) (cover : Option Route) (left : Nat)
  | nothingToClear (name : String)
  | tableCleared (name : String) (removed : Nat)
deriving Repr, DecidableEq

/-! ### Wording of the values in a note -/

/-- A prefix as its base in hexadecimal and its depth. -/
def Prefix.text (p : Prefix) : String := s!"{Text.hex 8 p.base.toNat}/{p.depth}"

/-- The fields of a route. -/
def Route.text (r : Route) : String := s!"\x7b depth: {r.depth}, next_hop: {r.nextHop} \x7d"

/-- The rule that takes over a deleted one's place, if there is one. -/
def Route.coverText : Option Route → String
  | none => "None"
  | some r => s!"Some(Cover {r.text})"

/-- A first-level slot. -/
def Entry.text : Entry → String
  | invalid => "Invalid"
  | leaf r => s!"Leaf {r.text}"
  | group g => s!"Group \x7b group: {g} \x7d"

/-- A reclamation mode, as it was asked for. -/
def ReclaimMode.text : ReclaimMode → String
  | wait => "Sync"
  | defer capacity threshold batch =>
    s!"DeferQueue \x7b capacity: {capacity}, reclaim_threshold: {threshold}, reclaim_max: {batch} \x7d"

/-- What an addition did. -/
def AddOutcome.text : AddOutcome → String
  | inserted => "Inserted"
  | updated => "Updated"
  | unchanged => "Unchanged"

/-! ### Levels and wording of the notes -/

namespace Note

/-- How serious a note is. -/
def level : Note → Level
  | deferFailed .. | groupMissing .. => .error
  | readerSlotsTaken .. | queueFull .. | noFreeGroup .. | nameTaken .. | storeFull ..
  | ruleRolledBack .. => .warn
  | reclamationBound .. | tableCreated .. | tableFreed .. | tableCleared .. => .info
  | itemsReclaimed .. | queueDrained .. | poolExhausted | groupAllocated .. | groupLinked ..
  | groupUnlinked .. | nameReleased .. | ruleAdded .. | ruleDeleted .. | nothingToClear .. => .debug
  | ruleStored .. | readerRegistered .. | readerUnregistered .. | graceComplete ..
  | itemDeferred .. | projected .. | ruleKnown .. => .trace

/-- How a note reads. -/
def text : Note → String
  | ruleStored p index => s!"[RULES] stored {p.text} at index {index}"
  | readerRegistered slot => s!"[QSBR] reader {slot} registered"
  | readerSlotsTaken slots => s!"[QSBR] all {slots} reader slots taken"
  | readerUnregistered slot => s!"[QSBR] reader {slot} unregistered"
  | graceComplete token => s!"[QSBR] grace period {token} complete"
  | queueFull length item => s!"[DQ] queue full ({length} items), cannot defer {item}"
  | itemDeferred item token => s!"[DQ] deferred {item} behind token {token}"
  | itemsReclaimed freed pending => s!"[DQ] reclaimed {freed} items, {pending} pending"
  | queueDrained freed => s!"[DQ] drained {freed} items"
  | reclamationBound mode => s!"[TBL8] reclamation bound: {mode.text}"
  | poolExhausted => "[TBL8] pool exhausted, attempting one reclaim cycle"
  | groupAllocated group inUse => s!"[TBL8] allocated group {group} ({inUse} in use)"
  | noFreeGroup groups pending =>
    s!"[TBL8] no free group among {groups} (pending reclaims: {pending})"
  | deferFailed group => s!"[TBL8] failed to defer release of group {group}"
  | projected p slots => s!"[UPDATE] projected {p.text} over {slots} level-1 slots"
  | groupLinked group bucket =>
    s!"[UPDATE] group {group} now extends level-1 slot {Text.hex 6 bucket}"
  | groupMissing p bucket =>
    s!"[UPDATE] no group behind {p.text} at level-1 slot {Text.hex 6 bucket}"
  | groupUnlinked group bucket left =>
    s!"[UPDATE] group {group} unlinked from level-1 slot {Text.hex 6 bucket} ({left.text})"
  | tableCreated name config =>
    s!"[CREATE] table '{name}' max_rules={config.maxRules} number_groups={config.groups}"
  | nameTaken name => s!"[CREATE] table '{name}' already exists"
  | nameReleased name => s!"[FREE] '{name}' removed from registry"
  | tableFreed name settled => s!"[FREE] table '{name}' freed ({settled} pending groups settled)"
  | storeFull capacity => s!"[ADD] rule store full ({capacity} rules)"
  | ruleKnown r => s!"[ADD] {r.route.text} -> {r.nextHop} already present"
  | ruleRolledBack p reason => s!"[ADD] {p.text} rolled back: {reason.message}"
  | ruleAdded r outcome rules =>
    s!"[ADD] {r.route.text} -> {r.nextHop} ({outcome.text}, {rules} rules)"
  | ruleDeleted p cover left =>
    s!"[DELETE] {p.text} (cover: {Route.coverText cover}, {left} rules left)"
  | nothingToClear name => s!"[CLEAR] table '{name}' holds no rules"
  | tableCleared name removed => s!"[CLEAR] table '{name}' cleared ({removed} rules removed)"

/-- The note as one line of a log. -/
def line (n : Note) : String := s!"{n.level.text} {n.text}"

end Note

end Dir248
