import Dir248.Grace.Tracker

/-!
# The defer queue

A bounded queue of released items, each behind the token of the grace period that was
opened when it came in. Items leave in the order they came, once their period is over. A
reclaim pass that meets an item whose period is not over parks it in front of the queue.

* **`DeferQueue`**, **`DeferQueue.pending`** — the queue and its items, oldest first.
* **`takeSafe`** — the items a pass may free.
* **`enqueue`**, **`reclaim`**, **`drain`** — the operations; each hands back the items it freed.
* **`pending_takeSafe`**, **`pending_push`**, **`pending_drain`** — what they do to the items
  that wait: nothing is lost and the order is kept.
-/

namespace Dir248

/-- An item that waits for the grace period of a token. -/
structure Ticket where
  token : Nat
  item : Nat
deriving Repr, DecidableEq, Inhabited

/-- The bounds of the queue, the item parked in front of it, and the items behind. -/
structure DeferQueue where
  capacity : Nat
  threshold : Nat
  batch : Nat
  parked : Option Ticket := none
  waiting : List Ticket := []
deriving Repr, DecidableEq, Inhabited

namespace DeferQueue

/-- An empty queue. It must have room for an item, its threshold may not lie beyond its
capacity, and a batch of zero stands for the default batch. -/
def new (capacity threshold batch : Nat) : Except Failure DeferQueue :=
  if capacity = 0 then .error (.invalidArgument .queueCapacity)
  else if capacity < threshold then .error (.invalidArgument .reclaimThreshold)
  else .ok { capacity, threshold, batch := if batch = 0 then defaultBatch else batch }

/-- All items that wait, oldest first. -/
def pending (q : DeferQueue) : List Ticket := q.parked.toList ++ q.waiting

/-- The number of items that wait. -/
def length (q : DeferQueue) : Nat := q.waiting.length + q.parked.toList.length

/-- Whether no item waits. -/
def isEmpty (q : DeferQueue) : Bool := q.length == 0

theorem length_pending (q : DeferQueue) : q.pending.length = q.length := by
  simp only [pending, length, List.length_append]
  omega

/-! ### Taking items out -/

/-- The oldest item and the queue without it. -/
def pop? (q : DeferQueue) : Option (Ticket × DeferQueue) :=
  match q.parked with
  | some x => some (x, { q with parked := none })
  | none =>
    match q.waiting with
    | [] => none
    | x :: rest => some (x, { q with waiting := rest })

/-- A queue after some items were taken out of it, and those items in order. -/
structure Taken where
  queue : DeferQueue
  freed : List Nat := []
deriving Repr, DecidableEq

/-- Takes out up to `max` items whose grace period is over, and parks the first whose
period is not. -/
def takeSafe (t : Tracker) : (max : Nat) → DeferQueue → Taken
  | 0, q => ⟨q, []⟩
  | max + 1, q =>
    match q.pop? with
    | none => ⟨q, []⟩
    | some (x, rest) =>
      if t.check x.token then
        let more := takeSafe t max rest
        ⟨more.queue, x.item :: more.freed⟩
      else ⟨{ rest with parked := some x }, []⟩

theorem pending_pop (q rest : DeferQueue) (x : Ticket) (h : q.pop? = some (x, rest)) :
    q.pending = x :: rest.pending ∧ rest.parked = none := by
  unfold pop? at h
  split at h
  · next y hy =>
    cases h
    simp [pending, hy]
  · next hn =>
    split at h
    · cases h
    · next y ys hy =>
      cases h
      simp [pending, hn, hy]

/-- A pass splits the items that wait into those it frees and those it leaves. -/
theorem pending_takeSafe (t : Tracker) (max : Nat) (q : DeferQueue) :
    q.pending.map Ticket.item =
      (takeSafe t max q).freed ++ (takeSafe t max q).queue.pending.map Ticket.item := by
  induction max generalizing q with
  | zero => rfl
  | succ max ih =>
    simp only [takeSafe]
    split
    · simp
    · next x rest h =>
      obtain ⟨hp, hn⟩ := pending_pop q rest x h
      split
      · rw [hp, List.map_cons, ih rest, List.cons_append]
      · rw [hp]
        simp [pending, hn]

/-- Frees up to `max` items whose grace period is over, oldest first. -/
def reclaim (q : DeferQueue) (max : Nat) (t : Tracker) : Traced Taken := do
  let taken := takeSafe t max q
  Traced.logIf (0 < taken.freed.length)
    (.itemsReclaimed taken.freed.length taken.queue.length)
  pure taken

theorem value_reclaim (q : DeferQueue) (max : Nat) (t : Tracker) :
    (q.reclaim max t).value = takeSafe t max q := rfl

/-! ### Putting an item in -/

/-- What became of a queue, its tracker and an item that was sent to it. -/
structure Enqueued where
  queue : DeferQueue
  tracker : Tracker
  freed : List Nat
  answer : Except Failure Unit

/-- Puts an item behind a fresh grace period. -/
def push (q : DeferQueue) (item : Nat) (t : Tracker) (freed : List Nat) : Traced Enqueued := do
  let started := t.start
  if q.waiting.length < q.capacity then
    Traced.log (.itemDeferred item started.token)
    pure ⟨{ q with waiting := q.waiting ++ [⟨started.token, item⟩] }, started, freed, .ok ()⟩
  else
    Traced.emit (.fault .queueOverflow)
    pure ⟨q, started, freed, .error .reclamationUnavailable⟩

/-- An item that comes in stands behind all others. -/
theorem pending_push (q : DeferQueue) (item : Nat) (t : Tracker) (freed : List Nat)
    (h : q.waiting.length < q.capacity) :
    (q.push item t freed).value.queue.pending = q.pending ++ [⟨t.start.token, item⟩] := by
  simp [push, h, pending]

/-- Sends an item to the queue. A queue at its threshold first frees a batch, a queue still
full then tries another batch, and one that stays full turns the item away. -/
def enqueue (q : DeferQueue) (item : Nat) (t : Tracker) : Traced Enqueued := do
  let first ← if q.threshold ≤ q.length then q.reclaim q.batch t else pure ⟨q, []⟩
  if first.queue.length < q.capacity then
    first.queue.push item t first.freed
  else
    let second ← first.queue.reclaim q.batch t
    let freed := first.freed ++ second.freed
    if second.queue.length < q.capacity then
      second.queue.push item t freed
    else
      Traced.log (.queueFull second.queue.length item)
      pure ⟨second.queue, t, freed, .error .reclamationUnavailable⟩

/-! ### Emptying the queue -/

/-- What became of a queue and its tracker when all items were freed. -/
structure Drained where
  queue : DeferQueue
  tracker : Tracker
  freed : List Nat

/-- Waits out one grace period and frees every item. An empty queue waits for nothing. -/
def drain (q : DeferQueue) (t : Tracker) (meanwhile : Meanwhile) : Traced Drained := do
  if q.isEmpty then pure ⟨q, t, []⟩
  else
    let t ← t.synchronize meanwhile
    Traced.log (.queueDrained q.length)
    pure ⟨{ q with parked := none, waiting := [] }, t, q.pending.map Ticket.item⟩

/-- Nothing waits in a queue that was drained. -/
theorem pending_drain (q : DeferQueue) (t : Tracker) (meanwhile : Meanwhile) :
    (q.drain t meanwhile).value.queue.pending = [] := by
  unfold drain
  split
  · next h =>
    have hl : q.pending.length = 0 := by
      rw [length_pending]
      simpa [isEmpty] using h
    exact List.eq_nil_of_length_eq_zero hl
  · rfl

end DeferQueue

end Dir248
