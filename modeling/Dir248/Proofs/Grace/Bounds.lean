import Dir248.Proofs.Grace.Passes

/-!
# The oldest item of a queue

Items leave a queue from the front, so the oldest one decides how a pass or an enqueue ends.
While its check fails nothing is freed, and a full queue turns every item away; once it has
passed, a pass frees at least this one, and a full queue has room again.

* **`DeferQueue.Sound`** — there is room for an item, a batch is at least one, and no more items
  wait than fit.
* **`DeferQueue.Blocked`** — the oldest item has not passed its check.
* **`Blocked.takeSafe`**, **`freed_ne_nil`** — a pass over a blocked queue, and over another.
* **`Sound.sent`**, **`Blocked.sent`** — what sending an item keeps.
* **`rejected_enqueue`**, **`Blocked.rejects`** — an item is turned away by a full blocked queue,
  and by no other.
-/

namespace Dir248

@[simp] theorem Tracker.check_start (t : Tracker) (token : Nat) :
    t.start.check token = t.check token := rfl

namespace DeferQueue

/-- The bounds of a queue make sense, and the items that wait respect them. -/
structure Sound (q : DeferQueue) : Prop where
  capacity : 0 < q.capacity
  batch : 0 < q.batch
  fits : q.length ≤ q.capacity

/-- The oldest item that waits has not passed its check. -/
def Blocked (q : DeferQueue) (t : Tracker) : Prop :=
  ∃ x, q.pending.head? = some x ∧ t.check x.token = false

variable {q : DeferQueue} {t : Tracker}

theorem sound_new {capacity threshold batch : Nat}
    (h : new capacity threshold batch = .ok q) : q.Sound := by
  have hlength : q.length = 0 := by
    rw [← length_pending, pending_new h]
    rfl
  unfold new at h
  split at h
  · cases h
  · next hcapacity =>
    split at h <;> cases h
    refine ⟨Nat.pos_of_ne_zero hcapacity, ?_, hlength ▸ Nat.zero_le _⟩
    show 0 < if batch = 0 then defaultBatch else batch
    split
    · decide
    · next hbatch => exact Nat.pos_of_ne_zero hbatch

theorem Blocked.of_pending (h : q.Blocked t) {q' : DeferQueue} (hp : q'.pending = q.pending) :
    q'.Blocked t := by
  obtain ⟨x, hx, hcheck⟩ := h
  exact ⟨x, hp ▸ hx, hcheck⟩

/-! ### A pass -/

/-- A pass splits the items that wait in those it frees and those that stay. -/
theorem length_takeSafe (t : Tracker) (max : Nat) (q : DeferQueue) :
    (takeSafe t max q).freed.length + (takeSafe t max q).queue.length = q.length := by
  obtain ⟨xs, hpending, hfreed, -⟩ := takeSafe_spec t max q
  rw [← length_pending q, hpending, hfreed, List.length_append, List.length_map, length_pending]

theorem Sound.takeSafe (h : q.Sound) (t : Tracker) (max : Nat) :
    (DeferQueue.takeSafe t max q).queue.Sound := by
  obtain ⟨hcapacity, -, hbatch⟩ := bounds_takeSafe t max q
  have hlength := length_takeSafe t max q
  have hfits := h.fits
  refine ⟨hcapacity ▸ h.capacity, hbatch ▸ h.batch, ?_⟩
  omega

/-- A pass that frees nothing leaves all items where they are. -/
theorem pending_of_freed_nil {max : Nat} (h : (takeSafe t max q).freed = []) :
    (takeSafe t max q).queue.pending = q.pending := by
  obtain ⟨xs, hpending, hfreed, -⟩ := takeSafe_spec t max q
  obtain rfl : xs = [] := List.map_eq_nil_iff.mp (hfreed.symm.trans h)
  exact hpending.symm

/-- A pass over a blocked queue does nothing. -/
theorem Blocked.takeSafe (h : q.Blocked t) (max : Nat) :
    (DeferQueue.takeSafe t max q).freed = [] ∧
      (DeferQueue.takeSafe t max q).queue.pending = q.pending := by
  obtain ⟨x, hx, hcheck⟩ := h
  obtain ⟨xs, hpending, hfreed, hpassed⟩ := takeSafe_spec t max q
  cases xs with
  | nil => exact ⟨hfreed, hpending.symm⟩
  | cons y ys =>
    -- the first item that went was the oldest, and it has passed its check
    rw [hpending, List.cons_append, List.head?_cons] at hx
    obtain rfl := Option.some.inj hx
    rw [hpassed y List.mem_cons_self] at hcheck
    cases hcheck

theorem pop?_of_pending_ne_nil (h : q.pending ≠ []) : ∃ x rest, q.pop? = some (x, rest) := by
  unfold pop?
  cases hparked : q.parked with
  | some x => exact ⟨x, _, rfl⟩
  | none =>
    cases hwaiting : q.waiting with
    | cons x rest => exact ⟨x, _, rfl⟩
    | nil =>
      refine absurd ?_ h
      rw [pending, hparked, hwaiting]
      rfl

/-- A pass frees something, unless nothing waits or the queue is blocked. -/
theorem freed_ne_nil (hne : q.pending ≠ []) (hb : ¬ q.Blocked t) {max : Nat} (hmax : 0 < max) :
    (takeSafe t max q).freed ≠ [] := by
  obtain ⟨max, rfl⟩ : ∃ n, max = n + 1 := ⟨max - 1, by omega⟩
  obtain ⟨x, rest, hpop⟩ := pop?_of_pending_ne_nil hne
  have hpending := (pending_pop q rest x hpop).1
  have hcheck : t.check x.token = true := by
    rw [← Bool.not_eq_false]
    exact fun hfalse => hb ⟨x, by rw [hpending, List.head?_cons], hfalse⟩
  simp [takeSafe, hpop, hcheck]

/-! ### Sending an item -/

theorem Sound.sent (h : q.Sound) {item : Nat} {sent : Enqueued} (hs : q.Sent item t sent) :
    sent.queue.Sound := by
  cases hs with
  | queued k l hroom =>
    have hsound := (h.takeSafe t k).takeSafe t l
    have hcapacity := (bounds_takeSafe t l (DeferQueue.takeSafe t k q).queue).1.trans
      (bounds_takeSafe t k q).1
    refine ⟨hsound.capacity, hsound.batch, ?_⟩
    simp only [length, List.length_append, List.length_singleton, hcapacity] at hroom ⊢
    omega
  | rejected k l hfull => exact (h.takeSafe t k).takeSafe t l

/-- A blocked queue frees nothing when an item comes, and it stays blocked. -/
theorem Blocked.sent (h : q.Blocked t) {item : Nat} {sent : Enqueued}
    (hs : q.Sent item t sent) : sent.freed = [] ∧ sent.queue.Blocked sent.tracker := by
  have hpasses : ∀ k l, (DeferQueue.takeSafe t k q).freed ++
      (DeferQueue.takeSafe t l (DeferQueue.takeSafe t k q).queue).freed = [] ∧
      (DeferQueue.takeSafe t l (DeferQueue.takeSafe t k q).queue).queue.pending = q.pending := by
    intro k l
    obtain ⟨hfreed, hpending⟩ := h.takeSafe k
    obtain ⟨hfreed', hpending'⟩ := (h.of_pending hpending).takeSafe l
    rw [hfreed, hfreed']
    exact ⟨rfl, hpending'.trans hpending⟩
  cases hs with
  | queued k l hroom =>
    obtain ⟨hfreed, hpending⟩ := hpasses k l
    obtain ⟨x, hx, hcheck⟩ := h
    refine ⟨hfreed, x, ?_, hcheck⟩
    rw [pending, ← List.append_assoc]
    show ((DeferQueue.takeSafe t l (DeferQueue.takeSafe t k q).queue).queue.pending ++ _).head? = _
    rw [hpending, List.head?_append, hx]
    rfl
  | rejected k l hfull =>
    obtain ⟨hfreed, hpending⟩ := hpasses k l
    exact ⟨hfreed, h.of_pending hpending⟩

/-- A full blocked queue turns an item away, and stays full. -/
theorem Blocked.rejects (h : q.Blocked t) (hfull : q.length = q.capacity) {item : Nat}
    {sent : Enqueued} (hs : q.Sent item t sent) :
    sent.answer = .error .reclamationUnavailable ∧ sent.queue.length = sent.queue.capacity := by
  have hpasses : ∀ k l, (DeferQueue.takeSafe t l (DeferQueue.takeSafe t k q).queue).queue.length =
      q.capacity := by
    intro k l
    obtain ⟨-, hpending⟩ := h.takeSafe k
    obtain ⟨-, hpending'⟩ := (h.of_pending hpending).takeSafe l
    rw [← length_pending, hpending', hpending, length_pending, hfull]
  cases hs with
  | queued k l hroom => exact absurd (hpasses k l) (Nat.ne_of_lt hroom)
  | rejected k l _ =>
    refine ⟨rfl, (hpasses k l).trans ?_⟩
    exact ((bounds_takeSafe t l (DeferQueue.takeSafe t k q).queue).1.trans
      (bounds_takeSafe t k q).1).symm

/-- Only a full blocked queue turns an item away. -/
theorem rejected_enqueue (h : q.Sound) {item : Nat} {e : Failure}
    (hr : (q.enqueue item t).value.answer = .error e) :
    q.Blocked t ∧ q.length = q.capacity := by
  obtain ⟨k, hk⟩ := value_firstPass q t
  obtain ⟨hcapacity, -, -⟩ := bounds_takeSafe t k q
  rw [enqueue_eq, Traced.value_bind, hk, afterPass] at hr
  split at hr
  · next hroom =>
    rw [value_push _ _ _ _ (by rwa [hcapacity])] at hr
    cases hr
  · rw [Traced.value_bind, value_reclaim] at hr
    split at hr
    · next hroom =>
      have hcapacity' := (bounds_takeSafe t q.batch (takeSafe t k q).queue).1
      rw [value_push _ _ _ _ (by rwa [hcapacity', hcapacity])] at hr
      cases hr
    · next hfull =>
      -- no item went in either pass, so the second one met an item that may not go
      have hfirst := length_takeSafe t k q
      have hsecond := length_takeSafe t q.batch (takeSafe t k q).queue
      have hfits := h.fits
      have hnone : (takeSafe t k q).freed = [] := List.eq_nil_of_length_eq_zero (by omega)
      have hnone' : (takeSafe t q.batch (takeSafe t k q).queue).freed = [] :=
        List.eq_nil_of_length_eq_zero (by omega)
      have hpending := pending_of_freed_nil hnone
      have hlength : q.length = q.capacity := by omega
      have hne : (takeSafe t k q).queue.pending ≠ [] := by
        rw [hpending, ← List.length_pos_iff, length_pending, hlength]
        exact h.capacity
      refine ⟨Classical.byContradiction fun hb => ?_, hlength⟩
      exact freed_ne_nil hne (fun hb' => hb (hb'.of_pending hpending.symm)) h.batch hnone'

theorem Sound.drain (h : q.Sound) (t : Tracker) (meanwhile : Meanwhile) :
    (q.drain t meanwhile).value.queue.Sound := by
  unfold DeferQueue.drain
  split
  · exact h
  · exact ⟨h.capacity, h.batch, Nat.zero_le _⟩

end DeferQueue

end Dir248
