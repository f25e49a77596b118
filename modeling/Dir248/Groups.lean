import Dir248.Arrays.Basic
import Dir248.Grace.Queue

/-!
# The groups of the second level

The writer hands groups out and takes them back. A group that was unlinked from the first
level is free at once only when no reader can be inside: at the writer's own risk when
nothing was bound, after a wait, or when its ticket in the defer queue comes up. A group
the full queue turned away is stranded until there is room for it.

* **`Pool`**, **`Reclaimer`** — the count of groups in use, the way they come back, and the
  stranded ones, newest first.
* **`Plane`** — what the writer works on: the arrays, the pool, and the tracker of the readers.
* **`allocate`**, **`release`** — a group goes out, an unlinked group comes back.
* **`reclaim`**, **`drain`**, **`reset`** — one pass over the queue, the end of all waiting, and
  a fresh start.
-/

namespace Dir248

/-- How released groups come back. -/
inductive Reclaimer where
  /-- At once. -/
  | unbound
  /-- After the writer has waited out a grace period. -/
  | waiting
  /-- Through a defer queue. -/
  | deferring (queue : DeferQueue)
deriving Repr, DecidableEq, Inhabited

/-- The writer's account of the groups. -/
structure Pool where
  inUse : Nat := 0
  reclaimer : Reclaimer := .unbound
  stranded : List Nat := []
deriving Repr, DecidableEq, Inhabited

namespace Pool

/-- Whether a reclamation scheme is bound. -/
def isBound (p : Pool) : Bool := p.reclaimer != .unbound

/-- The number of groups in the defer queue. -/
def queued (p : Pool) : Nat :=
  match p.reclaimer with
  | .deferring q => q.length
  | _ => 0

/-- The number of unlinked groups that are not free yet. -/
def pending (p : Pool) : Nat := p.queued + p.stranded.length

/-- Binds a reclamation scheme for a table of `groups` groups. It is bound for good. -/
def bind (p : Pool) (mode : ReclaimMode) (groups : Nat) :
    Traced (Outcome Pool (Except Failure Unit)) :=
  let bound (r : Reclaimer) : Traced (Outcome Pool (Except Failure Unit)) := do
    Traced.log (.reclamationBound mode)
    pure ⟨{ p with reclaimer := r }, .ok ()⟩
  if p.isBound then pure ⟨p, .error .alreadyBound⟩
  else
    match mode with
    | .wait => bound .waiting
    | .defer capacity threshold batch =>
      match DeferQueue.new (if capacity = 0 then groups else capacity) threshold batch with
      | .ok q => bound (.deferring q)
      | .error e => pure ⟨p, .error e⟩

end Pool

/-- What the writer of a table works on. -/
structure Plane where
  arrays : Arrays
  pool : Pool
  tracker : Tracker

namespace Plane

/-! ### Bookkeeping -/

/-- The plane of a table with the given number of groups, all of them free. -/
def new (groups : Nat) (tracker : Tracker) : Plane := ⟨{ groups }, {}, tracker⟩

/-- Publishes how many groups are free. -/
def report (p : Plane) : Traced Unit := do
  Traced.require (p.pool.inUse ≤ p.arrays.groups) .groupCount
  Traced.publish (.freeGroups (p.arrays.groups - p.pool.inUse))

/-- Waits out a grace period of the readers. -/
def synchronize (p : Plane) (meanwhile : Meanwhile) : Traced Plane := do
  let tracker ← p.tracker.synchronize meanwhile
  pure { p with tracker }

/-- Waits out a grace period if readers are tracked. -/
def synchronizeIfBound (p : Plane) (meanwhile : Meanwhile) : Traced Plane :=
  if p.pool.isBound then p.synchronize meanwhile else pure p

/-- Frees a group that no reader can reach. -/
def free (p : Plane) (group : Nat) : Traced Plane := do
  let arrays ← p.arrays.store (.slots (groupStart group) groupSize {})
  Traced.require (0 < p.pool.inUse) .groupCount
  Traced.publish .groupReleased
  pure { p with arrays, pool := { p.pool with inUse := p.pool.inUse - 1 } }

/-- Frees groups one after the other. -/
def freeAll (p : Plane) (groups : List Nat) : Traced Plane := groups.foldlM free p

/-- The plane with another defer queue. -/
def setQueue (p : Plane) (q : DeferQueue) : Plane :=
  { p with pool := { p.pool with reclaimer := .deferring q } }

/-- The plane with other stranded groups. -/
def setStranded (p : Plane) (stranded : List Nat) : Plane :=
  { p with pool := { p.pool with stranded } }

/-! ### The defer queue of the pool -/

/-- Sends a group to the defer queue and frees what the queue lets go. A pool without a
queue turns the group away. -/
def defer (p : Plane) (group : Nat) : Traced (Outcome Plane (Except Failure Unit)) :=
  match p.pool.reclaimer with
  | .deferring q => do
    let sent ← q.enqueue group p.tracker
    let p ← freeAll { p.setQueue sent.queue with tracker := sent.tracker } sent.freed
    pure ⟨p, sent.answer⟩
  | _ => pure ⟨p, .error .reclamationUnavailable⟩

/-- Sends stranded groups to the queue, newest first, until one is turned away; those left
stay stranded. -/
def requeue (p : Plane) : (stranded : List Nat) → Traced Plane
  | [] => pure (p.setStranded [])
  | g :: older => do
    let sent ← p.defer g
    match sent.answer with
    | .ok () => sent.state.requeue older
    | .error _ => pure (sent.state.setStranded (g :: older))

/-! ### Operations -/

/-- One pass over the defer queue: how many groups the pass freed. Room that opens up goes
to stranded groups. -/
def reclaim (p : Plane) : Traced (Outcome Plane Nat) :=
  match p.pool.reclaimer with
  | .deferring q => do
    let taken ← q.reclaim q.batch p.tracker
    let p ← (p.setQueue taken.queue).freeAll taken.freed
    let p ← p.requeue p.pool.stranded
    p.report
    pure ⟨p, taken.freed.length⟩
  | _ => pure ⟨p, 0⟩

/-- The lowest group that is not allocated. -/
def freeGroup? (t : Arrays) : Option Nat :=
  (List.range t.groups).find? fun g => !(t.slotAt (groupStart g)).occupied

/-- Hands out a group, all of its slots marked and empty. -/
def claim (p : Plane) (group : Nat) : Traced Plane := do
  let arrays ← p.arrays.store (.slots (groupStart group) groupSize .empty)
  let p : Plane := { p with arrays, pool := { p.pool with inUse := p.pool.inUse + 1 } }
  Traced.publish .groupAllocated
  p.report
  Traced.log (.groupAllocated group p.pool.inUse)
  pure p

/-- Makes one reclaim pass when no group is free and a scheme is bound. -/
def makeRoom (p : Plane) : Traced Plane :=
  if (freeGroup? p.arrays).isNone && p.pool.isBound then do
    Traced.log .poolExhausted
    let out ← p.reclaim
    pure out.state
  else pure p

/-- Hands out the lowest free group. When there is none, one reclaim pass may free some. -/
def allocate (p : Plane) : Traced (Outcome Plane (Except Failure Nat)) := do
  let p ← p.makeRoom
  match freeGroup? p.arrays with
  | some g =>
    let p ← p.claim g
    pure ⟨p, .ok g⟩
  | none =>
    Traced.publish .allocationFailed
    Traced.log (.noFreeGroup p.arrays.groups p.pool.pending)
    pure ⟨p, .error .outOfSpace⟩

/-- Takes back a group that the first level no longer names. -/
def release (p : Plane) (group : Nat) (meanwhile : Meanwhile) :
    Traced (Outcome Plane (Except Failure Unit)) :=
  match p.pool.reclaimer with
  | .unbound => do
    let p ← p.free group
    p.report
    pure ⟨p, .ok ()⟩
  | .waiting => do
    let p ← p.synchronize meanwhile
    let p ← p.free group
    p.report
    pure ⟨p, .ok ()⟩
  | .deferring _ => do
    let p ← p.requeue p.pool.stranded
    let sent ← p.defer group
    match sent.answer with
    | .ok () =>
      sent.state.report
      pure ⟨sent.state, .ok ()⟩
    | .error e =>
      Traced.log (.deferFailed group)
      let p := sent.state.setStranded (group :: sent.state.pool.stranded)
      p.report
      pure ⟨p, .error e⟩

/-- Empties the defer queue, if there is one, and hands back its items. -/
def drainQueue (p : Plane) (meanwhile : Meanwhile) : Traced (Outcome Plane (List Nat)) :=
  match p.pool.reclaimer with
  | .deferring q => do
    let drained ← q.drain p.tracker meanwhile
    pure ⟨{ p.setQueue drained.queue with tracker := drained.tracker }, drained.freed⟩
  | _ => pure ⟨p, []⟩

/-- Frees all stranded groups, oldest first, when their readers have moved on. -/
def settleStranded (p : Plane) (meanwhile : Meanwhile) : Traced Plane :=
  if p.pool.stranded.isEmpty then pure p
  else do
    let p ← p.synchronizeIfBound meanwhile
    let p ← p.freeAll p.pool.stranded.reverse
    pure (p.setStranded [])

/-- Waits for the readers and frees every group that is still pending: how many. -/
def drain (p : Plane) (meanwhile : Meanwhile) : Traced (Outcome Plane Nat) := do
  let queued ← p.drainQueue meanwhile
  let p ← queued.state.freeAll queued.answer
  let stranded := p.pool.stranded.length
  let p ← p.settleStranded meanwhile
  p.report
  pure ⟨p, queued.answer.length + stranded⟩

/-- Forgets every group, once the readers that may still be inside one have moved on. The
first level must name none by then. -/
def reset (p : Plane) (meanwhile : Meanwhile) : Traced Plane := do
  let p ← p.synchronizeIfBound meanwhile
  let emptied ← p.drainQueue meanwhile
  let arrays ← emptied.state.arrays.clearSlots
  let p : Plane := { emptied.state with
    arrays, pool := { emptied.state.pool with inUse := 0, stranded := [] } }
  p.report
  pure p

end Plane

end Dir248
