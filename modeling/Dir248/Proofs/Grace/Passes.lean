import Dir248.Grace.Queue
import Dir248.Proofs.Traces

/-!
# Passes over the defer queue

A reclaim pass takes tickets off the front of the queue, each after its own check. Sending
an item to the queue makes at most two passes and then either puts the item behind all
others or turns it away.

* **`takeSafe_spec`** — the tickets of a pass come first and have passed their checks.
* **`DeferQueue.Sent`**, **`sent_enqueue`** — the two ways an enqueue can end.
-/

namespace Dir248

namespace DeferQueue

/-- Nothing waits in a new queue. -/
theorem pending_new {capacity threshold batch : Nat} {q : DeferQueue}
    (h : new capacity threshold batch = .ok q) : q.pending = [] := by
  unfold new at h
  split at h
  · cases h
  · split at h <;> cases h
    rfl

/-! ### One pass -/

theorem bounds_pop {q rest : DeferQueue} {x : Ticket} (h : q.pop? = some (x, rest)) :
    rest.capacity = q.capacity ∧ rest.threshold = q.threshold ∧ rest.batch = q.batch := by
  unfold pop? at h
  split at h
  · cases h
    exact ⟨rfl, rfl, rfl⟩
  · split at h <;> cases h
    exact ⟨rfl, rfl, rfl⟩

/-- A pass leaves the bounds of the queue alone. -/
theorem bounds_takeSafe (t : Tracker) (max : Nat) (q : DeferQueue) :
    (takeSafe t max q).queue.capacity = q.capacity ∧
      (takeSafe t max q).queue.threshold = q.threshold ∧
        (takeSafe t max q).queue.batch = q.batch := by
  induction max generalizing q with
  | zero => exact ⟨rfl, rfl, rfl⟩
  | succ max ih =>
    simp only [takeSafe]
    split
    · exact ⟨rfl, rfl, rfl⟩
    · next x rest h =>
      obtain ⟨h1, h2, h3⟩ := bounds_pop h
      split
      · obtain ⟨i1, i2, i3⟩ := ih rest
        exact ⟨i1.trans h1, i2.trans h2, i3.trans h3⟩
      · exact ⟨h1, h2, h3⟩

/-- The tickets a pass takes stand in front, and each has passed its check. -/
theorem takeSafe_spec (t : Tracker) (max : Nat) (q : DeferQueue) :
    ∃ xs : List Ticket, q.pending = xs ++ (takeSafe t max q).queue.pending ∧
      (takeSafe t max q).freed = xs.map Ticket.item ∧ ∀ x ∈ xs, t.check x.token = true := by
  induction max generalizing q with
  | zero => exact ⟨[], rfl, rfl, nofun⟩
  | succ max ih =>
    simp only [takeSafe]
    split
    · exact ⟨[], rfl, rfl, nofun⟩
    · next x rest h =>
      obtain ⟨hp, hn⟩ := pending_pop q rest x h
      split
      · next hcheck =>
        obtain ⟨xs, h1, h2, h3⟩ := ih rest
        refine ⟨x :: xs, ?_, ?_, ?_⟩
        · rw [hp, h1, List.cons_append]
        · rw [h2, List.map_cons]
        · intro y hy
          rcases List.mem_cons.mp hy with rfl | hy
          · exact hcheck
          · exact h3 y hy
      · refine ⟨[], ?_, rfl, nofun⟩
        rw [hp, pending, pending, hn]
        rfl

/-! ### Sending an item -/

/-- How sending an item to the queue ends, after one pass and another. -/
inductive Sent (q : DeferQueue) (item : Nat) (t : Tracker) : Enqueued → Prop
  | queued (k l : Nat)
      (hroom : (takeSafe t l (takeSafe t k q).queue).queue.length < q.capacity) :
      Sent q item t
        ⟨{ (takeSafe t l (takeSafe t k q).queue).queue with
            waiting := (takeSafe t l (takeSafe t k q).queue).queue.waiting ++
              [⟨t.start.token, item⟩] },
          t.start, (takeSafe t k q).freed ++ (takeSafe t l (takeSafe t k q).queue).freed, .ok ()⟩
  | rejected (k l : Nat)
      (hfull : q.capacity ≤ (takeSafe t l (takeSafe t k q).queue).queue.length) :
      Sent q item t
        ⟨(takeSafe t l (takeSafe t k q).queue).queue, t,
          (takeSafe t k q).freed ++ (takeSafe t l (takeSafe t k q).queue).freed,
          .error .reclamationUnavailable⟩

/-- A queue with room for an item takes it. -/
theorem value_push (q : DeferQueue) (item : Nat) (t : Tracker) (freed : List Nat)
    (h : q.length < q.capacity) : (q.push item t freed).value =
      ⟨{ q with waiting := q.waiting ++ [⟨t.start.token, item⟩] }, t.start, freed, .ok ()⟩ := by
  have hroom : q.waiting.length < q.capacity := by
    simp only [length] at h
    omega
  simp [push, hroom]

/-- The pass of a queue at its threshold. -/
def firstPass (q : DeferQueue) (t : Tracker) : Traced Taken :=
  if q.threshold ≤ q.length then q.reclaim q.batch t else pure ⟨q, []⟩

/-- What follows the first pass. -/
def afterPass (batch capacity item : Nat) (t : Tracker) (first : Taken) : Traced Enqueued :=
  if first.queue.length < capacity then first.queue.push item t first.freed
  else do
    let second ← first.queue.reclaim batch t
    let freed := first.freed ++ second.freed
    if second.queue.length < capacity then second.queue.push item t freed
    else
      Traced.log (.queueFull second.queue.length item)
      pure ⟨second.queue, t, freed, .error .reclamationUnavailable⟩

theorem enqueue_eq (q : DeferQueue) (item : Nat) (t : Tracker) :
    q.enqueue item t = q.firstPass t >>= afterPass q.batch q.capacity item t := by
  unfold enqueue firstPass
  split <;> rfl

theorem value_firstPass (q : DeferQueue) (t : Tracker) :
    ∃ k, (q.firstPass t).value = takeSafe t k q := by
  unfold firstPass
  split
  · exact ⟨q.batch, rfl⟩
  · exact ⟨0, rfl⟩

theorem sent_enqueue (q : DeferQueue) (item : Nat) (t : Tracker) :
    Sent q item t (q.enqueue item t).value := by
  obtain ⟨k, hk⟩ := value_firstPass q t
  have hcap := (bounds_takeSafe t k q).1
  rw [enqueue_eq, Traced.value_bind, hk, afterPass]
  split
  · next hroom =>
    rw [value_push _ _ _ _ (by rwa [hcap])]
    have hsent : Sent q item t _ := .queued k 0 hroom
    rwa [show (takeSafe t 0 (takeSafe t k q).queue).freed = [] from rfl, List.append_nil] at hsent
  · have hcap2 := (bounds_takeSafe t q.batch (takeSafe t k q).queue).1
    rw [Traced.value_bind, value_reclaim]
    split
    · next hroom =>
      rw [value_push _ _ _ _ (by rwa [hcap2, hcap])]
      exact .queued k q.batch hroom
    · next hfull => exact .rejected k q.batch (Nat.le_of_not_lt hfull)

/-! ### Events -/

theorem quiet_reclaim (q : DeferQueue) (max : Nat) (t : Tracker) : (q.reclaim max t).Quiet :=
  Traced.Quiet.bind (Traced.quiet_logIf _ trivial) (Traced.quiet_pure _)

theorem quiet_push (q : DeferQueue) (item : Nat) (t : Tracker) (freed : List Nat) :
    (q.push item t freed).Quiet := by
  simp only [push]
  split
  · exact Traced.Quiet.bind (Traced.quiet_log trivial) (Traced.quiet_pure _)
  · exact Traced.Quiet.bind (Traced.quiet_emit trivial) (Traced.quiet_pure _)

theorem quiet_enqueue (q : DeferQueue) (item : Nat) (t : Tracker) : (q.enqueue item t).Quiet := by
  rw [enqueue_eq]
  refine Traced.Quiet.bind ?_ ?_
  · unfold firstPass
    split
    · exact quiet_reclaim q q.batch t
    · exact Traced.quiet_pure _
  · unfold afterPass
    split
    · exact quiet_push _ item t _
    · refine Traced.Quiet.bind (quiet_reclaim _ q.batch t) ?_
      split
      · exact quiet_push _ item t _
      · exact Traced.Quiet.bind (Traced.quiet_log trivial) (Traced.quiet_pure _)

end DeferQueue

end Dir248
