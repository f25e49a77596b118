/-!
# Metrics

The figures a table reports while it works, and the forwarding of any figure to a
listener that takes a name and a 64-bit count.

* **`Metric`** — the table's own figures, with their names and values.
* **`Measurement`**, **`Measurement.forwarded`** — what a listener receives for an update of
  a counter, a gauge or a histogram.
-/

namespace Dir248

/-! ### The figures of a table -/

/-- One update of one of the table's figures: the counters go up by one, the gauge shows
how many groups are free. -/
inductive Metric where
  | ruleAdded
  | ruleDeleted
  | groupAllocated
  | groupReleased
  | allocationFailed
  | freeGroups (count : Nat)
deriving Repr, DecidableEq, Inhabited

/-- The name a figure is published under. -/
def Metric.name : Metric → String
  | ruleAdded => "lpm_rules_added_total"
  | ruleDeleted => "lpm_rules_deleted_total"
  | groupAllocated => "lpm_groups_allocated_total"
  | groupReleased => "lpm_groups_released_total"
  | allocationFailed => "lpm_group_alloc_failures_total"
  | freeGroups _ => "lpm_free_groups"

/-- The number published with a figure. -/
def Metric.value : Metric → Nat
  | freeGroups count => count
  | _ => 1

/-! ### Forwarding to a listener -/

/-- An update of a named figure. -/
inductive Measurement where
  | counterIncrement (amount : UInt64)
  | counterAbsolute (value : UInt64)
  | gaugeSet (value : Float)
  | gaugeIncrement (amount : Float)
  | gaugeDecrement (amount : Float)
  | histogramRecord (value : Float)

/-- The number a listener receives: the argument of the update itself, where a float loses
its fraction, stops at the ends of the 64-bit range, and counts as zero if it is none. -/
def Measurement.forwarded : Measurement → UInt64
  | counterIncrement n | counterAbsolute n => n
  | gaugeSet x | gaugeIncrement x | gaugeDecrement x | histogramRecord x => x.toUInt64

/-- The name a listener receives. Names end at a zero byte, so one that holds a zero
character cannot be passed on and becomes the empty name. -/
def forwardedName (name : String) : String :=
  if name.toList.contains '\x00' then "" else name

end Dir248
