import Dir248.Groups

/-!
# Rules in the arrays

A rule changes the slots of its own prefix and no others. A rule of depth 1 to 24 takes a
stretch of buckets, and inside a bucket that has a group all slots of the group; a deeper
rule takes some slots of the group of its one bucket. It takes what no deeper rule
answers. When a rule goes, the slots that no deeper rule answers fall to the rule that
covers it, if there is one.

A reader may look up between any two stores. So a fresh group is filled before its bucket
names it, and a group is released after its bucket has forgotten it.

* **`Slot.claim`**, **`Entry.claim`** — a rule comes to a slot.
* **`Slot.cede`**, **`Entry.cede`** — a rule leaves a slot.
* **`Slot.answer_claim`**, **`Slot.answer_cede`** — who answers in a slot after that.
* **`insertShallow`**, **`insertDeep`**, **`removeShallow`**, **`removeDeep`** — the four ways
  through the arrays.
-/

namespace Dir248

/-! ### One slot -/

/-- What a rule makes of a second-level slot: its own, unless a deeper rule answers there. -/
def Slot.claim (r : Route) (s : Slot) : Option Slot :=
  if s.yieldsTo r.depth then some (.leaf r) else none

/-- A rule answers where it came, unless a deeper one does. -/
theorem Slot.answer_claim (r : Route) (s : Slot) :
    ((s.claim r).getD s).answer =
      match s.answer with
      | some q => if q.depth ≤ r.depth then some r else some q
      | none => some r := by
  rcases s with ⟨valid, q, occupied⟩
  cases valid with
  | false => rfl
  | true =>
    by_cases h : q.depth ≤ r.depth <;> simp [Slot.claim, Slot.yieldsTo, Slot.answer, h, Slot.leaf]

/-- What a rule makes of a first-level slot without a group. -/
def Entry.claim (r : Route) : Entry → Option Entry
  | .invalid => some (.leaf r)
  | .leaf q => if q.depth ≤ r.depth then some (.leaf r) else none
  | .group _ => none

/-- What is left of a second-level slot when a rule of the given depth goes: the cover's, or
an invalid slot that keeps its depth. -/
def Slot.cede (depth : Nat) (cover : Option Route) (s : Slot) : Option Slot :=
  if depth < s.route.depth then none
  else
    match cover with
    | some c => some (.leaf c)
    | none => some { s with valid := false }

/-- Where a rule went its cover answers, unless a deeper rule does. -/
theorem Slot.answer_cede (depth : Nat) (cover : Option Route) (s : Slot) :
    ((s.cede depth cover).getD s).answer = if depth < s.route.depth then s.answer else cover := by
  by_cases h : depth < s.route.depth
  · simp [Slot.cede, h]
  · cases cover <;> simp [Slot.cede, h, Slot.answer, Slot.leaf]

/-- The first-level slot of a rule, or of none. -/
def Entry.ofRoute : Option Route → Entry
  | some r => .leaf r
  | none => .invalid

/-- What is left of a first-level slot without a group when a rule of the given depth goes. -/
def Entry.cede (depth : Nat) (cover : Option Route) : Entry → Option Entry
  | .invalid => some (.ofRoute cover)
  | .leaf q => if depth < q.depth then none else some (.ofRoute cover)
  | .group _ => none

/-! ### The slots of a prefix -/

namespace Prefix

/-- The first bucket of a prefix of depth 1 to 24, and the bucket behind its last. -/
def bucketRange (p : Prefix) : Nat × Nat := (bucket p.base, bucket p.base + span p.depth)

/-- The slots of a deeper prefix in the group of its bucket: the first, and the one behind
the last. -/
def slotRange (p : Prefix) (group : Nat) : Nat × Nat :=
  let first := groupStart group + offset p.base
  (first, first + span p.depth)

end Prefix

/-- The route a rule contributes. -/
def Rule.answer (r : Rule) : Route := ⟨r.route.depth, r.nextHop⟩

namespace Plane

/-! ### Rules that a bucket can hold -/

/-- A rule of depth 1 to 24 comes. -/
def insertShallow (p : Plane) (r : Rule) : Traced Plane := do
  let range := r.route.bucketRange
  let arrays ← p.arrays.sweepBuckets range.1 range.2 (Entry.claim r.answer)
    (Slot.claim r.answer)
  Traced.log (.projected r.route (span r.route.depth))
  pure { p with arrays }

/-- A rule of depth 1 to 24 goes. -/
def removeShallow (p : Plane) (route : Prefix) (cover : Option Route) : Traced Plane := do
  let range := route.bucketRange
  let arrays ← p.arrays.sweepBuckets range.1 range.2 (Entry.cede route.depth cover)
    (Slot.cede route.depth cover)
  pure { p with arrays }

/-! ### Rules that need a group -/

/-- Fills a fresh group and lets its bucket name it: what answered for the bucket goes on
answering in the slots that the rule does not take. -/
def linkGroup (p : Plane) (group : Nat) (current : Entry) (r : Rule) : Traced Plane := do
  let inherited ← match current with
    | .leaf q => p.arrays.store (.slots (groupStart group) groupSize (.leaf q))
    | _ => pure p.arrays
  let filled ← inherited.store
    (.slots (groupStart group + offset r.route.base) (span r.route.depth) (.leaf r.answer))
  let arrays ← filled.store (.buckets (bucket r.route.base) 1 (.group group))
  Traced.log (.groupLinked group (bucket r.route.base))
  pure { p with arrays }

/-- A rule of depth 25 to 32 comes. A bucket without a group gets one, if there is one. -/
def insertDeep (p : Plane) (r : Rule) : Traced (Outcome Plane (Except Failure Unit)) :=
  match p.arrays.entryAt (bucket r.route.base) with
  | .group g => do
    let range := r.route.slotRange g
    let arrays ← p.arrays.sweepSlots range.1 range.2 (Slot.claim r.answer)
    pure ⟨{ p with arrays }, .ok ()⟩
  | current => do
    let out ← p.allocate
    match out.answer with
    | .error e => pure ⟨out.state, .error e⟩
    | .ok g =>
      let p ← out.state.linkGroup g current r
      pure ⟨p, .ok ()⟩

/-- The first-level slot that takes a group's place, if the group is not needed. -/
def foldedEntry : Verdict → Option Entry
  | .inUse => none
  | .empty => some .invalid
  | .collapse r => some (.leaf r)

/-- A rule of depth 25 to 32 goes. A group that its bucket no longer needs is unlinked and
then released. -/
def removeDeep (p : Plane) (route : Prefix) (cover : Option Route) (meanwhile : Meanwhile) :
    Traced (Outcome Plane (Except Failure Unit)) :=
  match p.arrays.entryAt (bucket route.base) with
  | .group g => do
    let range := route.slotRange g
    let arrays ← p.arrays.sweepSlots range.1 range.2 (Slot.cede route.depth cover)
    match foldedEntry (arrays.verdict g) with
    | none => pure ⟨{ p with arrays }, .ok ()⟩
    | some left =>
      let arrays ← arrays.store (.buckets (bucket route.base) 1 left)
      Traced.log (.groupUnlinked g (bucket route.base) left)
      release { p with arrays } g meanwhile
  | _ => do
    Traced.emit (.fault .groupMissing)
    Traced.log (.groupMissing route (bucket route.base))
    pure ⟨p, .ok ()⟩

end Plane

end Dir248
