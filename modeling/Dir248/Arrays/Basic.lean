import Dir248.Trace
import Dir248.Words.Basic

/-!
# The two lookup arrays

Readers see two arrays and nothing else. The first has a slot for each of the 2 ^ 24
buckets; the second has 256 slots for each group. A lookup reads one slot of the first
and, where that names a group, one slot of the second.

* **`Arrays.answer`**, **`Arrays.lookup`** — the route that answers an address, and its next hop.
* **`Arrays.store`** — every change goes through it, one traced store of an entry or a slot.
* **`sweepSlots`**, **`sweepBuckets`** — a rule's way through the slots it spans.
* **`Arrays.verdict`** — whether a group may be folded back into its bucket.
* **`store_value`**, **`entryAt_store`**, **`slotAt_store`** — what a store changes.
-/

namespace Dir248

/-- The arrays of a table with the given number of groups. -/
structure Arrays where
  groups : Nat
  buckets : Words 24 := .uniform 0
  slots : Words 32 := .uniform 0

/-- Whether a group is still needed. -/
inductive Verdict where
  /-- No slot answers. -/
  | empty
  /-- All slots answer with one route that a bucket can hold. -/
  | collapse (route : Route)
  | inUse
deriving Repr, DecidableEq

namespace Arrays

/-! ### Reading -/

/-- A first-level slot. -/
def entryAt (t : Arrays) (i : Nat) : Entry := .decode (t.buckets.get i)

/-- A second-level slot. -/
def slotAt (t : Arrays) (i : Nat) : Slot := .decode (t.slots.get i)

/-- The route that answers an address. -/
def answer (t : Arrays) (a : Address) : Option Route :=
  match t.entryAt (bucket a) with
  | .invalid => none
  | .leaf r => some r
  | .group g => (t.slotAt (groupStart g + offset a)).answer

/-- The next hop of an address. -/
def lookup (t : Arrays) (a : Address) : Option Nat := (t.answer a).map Route.nextHop

/-- Whether a group is free, has to stay, or can be folded back into its bucket. The first
slot decides which route the others are compared with. -/
def verdict (t : Arrays) (group : Nat) : Verdict :=
  let lo := groupStart group
  let hi := lo + groupSize
  match (t.slotAt lo).answer with
  | some r =>
    if r.depth ≤ bucketDepth ∧ t.slots.all lo hi fun w => (Slot.decode w).answer == some r then
      .collapse r
    else .inUse
  | none =>
    if t.slots.all lo hi fun w => !(Slot.decode w).valid then .empty else .inUse

/-! ### Stores -/

/-- The arrays after a store. -/
def apply (t : Arrays) : Write → Arrays
  | .buckets start count e => { t with buckets := t.buckets.fill start (start + count) e.encode }
  | .slots start count s => { t with slots := t.slots.fill start (start + count) s.encode }

/-- Whether a store stays inside its array and keeps to the widths of a word. -/
def admits (t : Arrays) : Write → Bool
  | .buckets start count e => decide (start + count ≤ bucketCount) && e.fits
  | .slots start count s => decide (start + count ≤ t.groups * groupSize) && s.fits

/-- Makes a store. -/
def store (t : Arrays) (w : Write) : Traced Arrays := do
  Traced.require (t.admits w) .slotRange
  ⟨t.apply w, [.write w]⟩

@[simp] theorem store_value (t : Arrays) (w : Write) : (t.store w).value = t.apply w := rfl

@[simp] theorem groups_apply (t : Arrays) (w : Write) : (t.apply w).groups = t.groups := by
  cases w <;> rfl

theorem entryAt_store (t : Arrays) (start count : Nat) (e : Entry) (i : Nat)
    (h : i < bucketCount) :
    (t.apply (.buckets start count e)).entryAt i =
      if start ≤ i ∧ i < start + count then e.cut else t.entryAt i := by
  simp only [apply, entryAt, Words.get_fill _ _ _ _ _ h]
  split
  · exact Entry.decode_encode e
  · rfl

theorem slotAt_store (t : Arrays) (start count : Nat) (s : Slot) (i : Nat) (h : i < 2 ^ 32) :
    (t.apply (.slots start count s)).slotAt i =
      if start ≤ i ∧ i < start + count then s.cut else t.slotAt i := by
  simp only [apply, slotAt, Words.get_fill _ _ _ _ _ h]
  split
  · exact Slot.decode_encode s
  · rfl

@[simp] theorem entryAt_store_slots (t : Arrays) (start count : Nat) (s : Slot) (i : Nat) :
    (t.apply (.slots start count s)).entryAt i = t.entryAt i := rfl

@[simp] theorem slotAt_store_buckets (t : Arrays) (start count : Nat) (e : Entry) (i : Nat) :
    (t.apply (.buckets start count e)).slotAt i = t.slotAt i := rfl

/-! ### Sweeping a range -/

/-- Goes through the second-level slots from `lo` up to `hi` and stores what `change` makes
of each; slots it has nothing for stay as they are. -/
def sweepSlots (t : Arrays) (lo hi : Nat) (change : Slot → Option Slot) : Traced Arrays := do
  Traced.require (hi ≤ t.groups * groupSize) .slotRange
  (t.slots.pieces 0 lo hi).foldlM (fun t p =>
    match change (.decode p.word) with
    | some s => t.store (.slots p.start p.length s)
    | none => pure t) t

/-- Goes through all slots of a group. -/
def sweepGroup (t : Arrays) (group : Nat) (change : Slot → Option Slot) : Traced Arrays :=
  t.sweepSlots (groupStart group) (groupStart group + groupSize) change

/-- Sweeps a stretch of equal first-level slots: an entry by `onEntry`, and where the slots
name a group, the slots of that group by `onSlot`. -/
def sweepStretch (onEntry : Entry → Option Entry) (onSlot : Slot → Option Slot)
    (t : Arrays) (p : Piece) : Traced Arrays :=
  match Entry.decode p.word with
  | .group g => (List.range p.length).foldlM (fun t _ => t.sweepGroup g onSlot) t
  | e =>
    match onEntry e with
    | some e => t.store (.buckets p.start p.length e)
    | none => pure t

/-- Goes through the first-level slots from `lo` up to `hi` in ascending order. -/
def sweepBuckets (t : Arrays) (lo hi : Nat) (onEntry : Entry → Option Entry)
    (onSlot : Slot → Option Slot) : Traced Arrays := do
  Traced.require (hi ≤ bucketCount) .slotRange
  (t.buckets.pieces 0 lo hi).foldlM (sweepStretch onEntry onSlot) t

/-! ### Clearing -/

/-- Empties every first-level slot. -/
def clearBuckets (t : Arrays) : Traced Arrays := t.store (.buckets 0 bucketCount .invalid)

/-- Empties every second-level slot and frees every group. -/
def clearSlots (t : Arrays) : Traced Arrays := t.store (.slots 0 (t.groups * groupSize) {})

end Arrays

end Dir248
