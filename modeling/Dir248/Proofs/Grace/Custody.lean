import Dir248.Proofs.Grace.Bounds
import Dir248.Proofs.Grace.Periods

/-!
# Every item in its turn

A queue hands each item it took back once, in the order of the enqueues that took them. The
books of a run list what was offered to the queue, with the answers, and what it has freed.

* **`QueueCall`**, **`Ledger`**, **`Ledger.after`** — the calls on a queue and on the tracker it
  shares with others, and a run of them with its books.
* **`Releases`** — what a pass frees stood in front of what it leaves.
* **`Ledger.Balanced`** — the books agree with the queue; **`Balanced.after`** is the step.
* **`freed_append_pending`** — the run.
-/

namespace Dir248

/-- A call on a queue, or on its tracker by others: readers, and writers that open grace periods
of their own. -/
inductive QueueCall where
  | enqueue (item : Nat)
  | reclaim (max : Nat)
  | drain (meanwhile : Meanwhile)
  | tracker (call : TrackerCall)

namespace DeferQueue

variable {q q' q'' : DeferQueue} {t : Tracker} {freed freed' : List Nat}

/-! ### What a pass frees -/

/-- The items that were freed stood in front of those that are left. -/
def Releases (q : DeferQueue) (freed : List Nat) (q' : DeferQueue) : Prop :=
  ∃ xs : List Ticket, q.pending = xs ++ q'.pending ∧ freed = xs.map Ticket.item

theorem Releases.trans (h : q.Releases freed q') (h' : q'.Releases freed' q'') :
    q.Releases (freed ++ freed') q'' := by
  obtain ⟨xs, hpending, rfl⟩ := h
  obtain ⟨ys, hpending', rfl⟩ := h'
  exact ⟨xs ++ ys, by rw [hpending, hpending', List.append_assoc], List.map_append.symm⟩

theorem Releases.items (h : q.Releases freed q') :
    q.pending.map Ticket.item = freed ++ q'.pending.map Ticket.item := by
  obtain ⟨xs, hpending, rfl⟩ := h
  rw [hpending, List.map_append]

/-- What is left waited before. -/
theorem Releases.suffix (h : q.Releases freed q') : q'.pending <:+ q.pending := by
  obtain ⟨xs, hpending, -⟩ := h
  exact ⟨xs, hpending.symm⟩

theorem releases_takeSafe (t : Tracker) (max : Nat) (q : DeferQueue) :
    q.Releases (takeSafe t max q).freed (takeSafe t max q).queue := by
  obtain ⟨xs, hpending, hfreed, -⟩ := takeSafe_spec t max q
  exact ⟨xs, hpending, hfreed⟩

theorem releases_drain (q : DeferQueue) (t : Tracker) (meanwhile : Meanwhile) :
    q.Releases (q.drain t meanwhile).value.freed (q.drain t meanwhile).value.queue := by
  refine ⟨if q.isEmpty then [] else q.pending, ?_, ?_⟩ <;> unfold drain <;> split
  · rfl
  · exact (List.append_nil _).symm
  · rfl
  · rfl

theorem capacity_drain (q : DeferQueue) (t : Tracker) (meanwhile : Meanwhile) :
    (q.drain t meanwhile).value.queue.capacity = q.capacity := by
  unfold drain
  split <;> rfl

theorem token_drain (q : DeferQueue) (t : Tracker) (meanwhile : Meanwhile) :
    t.token ≤ (q.drain t meanwhile).value.tracker.token := by
  unfold drain
  split
  · exact Nat.le_refl _
  · exact t.token_serve (.synchronize meanwhile)

/-- An enqueue frees from the front, and then puts the item behind all others under a token that
is newer than any before, or turns it away. -/
theorem Sent.cases {item : Nat} {sent : Enqueued} (h : q.Sent item t sent) :
    ∃ left : DeferQueue, q.Releases sent.freed left ∧ sent.queue.capacity = q.capacity ∧
      ((sent.answer = .ok () ∧ sent.tracker = t.start ∧
          sent.queue.pending = left.pending ++ [⟨t.start.token, item⟩]) ∨
        (sent.answer = .error .reclamationUnavailable ∧ sent.tracker = t ∧
          sent.queue.pending = left.pending)) := by
  have hcapacity : ∀ k l, (takeSafe t l (takeSafe t k q).queue).queue.capacity = q.capacity :=
    fun k l => (bounds_takeSafe t l (takeSafe t k q).queue).1.trans (bounds_takeSafe t k q).1
  cases h with
  | queued k l hroom =>
    refine ⟨_, (releases_takeSafe t k q).trans (releases_takeSafe t l _), hcapacity k l,
      Or.inl ⟨rfl, rfl, ?_⟩⟩
    exact (List.append_assoc ..).symm
  | rejected k l hfull =>
    exact ⟨_, (releases_takeSafe t k q).trans (releases_takeSafe t l _), hcapacity k l,
      Or.inr ⟨rfl, rfl, rfl⟩⟩

/-! ### The books of a run -/

/-- A queue and its tracker, all items freed so far, and all items offered so far with the
answers they got. -/
structure Ledger where
  queue : DeferQueue
  tracker : Tracker
  freed : List Nat := []
  offers : List (Nat × Except Failure Unit) := []

namespace Ledger

/-- The items the queue took, in the order it took them. -/
def accepted (l : Ledger) : List Nat := (l.offers.filter fun offer => offer.2.isOk).map Prod.fst

/-- The books after a call. -/
def after (l : Ledger) : QueueCall → Ledger
  | .enqueue item =>
    let sent := (l.queue.enqueue item l.tracker).value
    ⟨sent.queue, sent.tracker, l.freed ++ sent.freed, l.offers ++ [(item, sent.answer)]⟩
  | .reclaim max =>
    let taken := (l.queue.reclaim max l.tracker).value
    { l with queue := taken.queue, freed := l.freed ++ taken.freed }
  | .drain meanwhile =>
    let drained := (l.queue.drain l.tracker meanwhile).value
    ⟨drained.queue, drained.tracker, l.freed ++ drained.freed, l.offers⟩
  | .tracker call => { l with tracker := l.tracker.serve call }

/-- What was freed and what waits are the items that were taken, in order; they wait under tokens
that grow, and there are never more than fit. -/
structure Balanced (capacity : Nat) (l : Ledger) : Prop where
  items : l.freed ++ l.queue.pending.map Ticket.item = l.accepted
  tokens : (l.queue.pending.map Ticket.token).Pairwise (· < ·)
  issued : ∀ x ∈ l.queue.pending, x.token ≤ l.tracker.token
  sound : l.queue.Sound
  capacity : l.queue.capacity = capacity

variable {capacity : Nat} {l : Ledger}

theorem balanced_new {threshold batch : Nat}
    (h : DeferQueue.new capacity threshold batch = .ok q) (t : Tracker) :
    Balanced capacity ⟨q, t, [], []⟩ := by
  have hempty := pending_new h
  refine ⟨?_, ?_, ?_, sound_new h, ?_⟩
  · rw [hempty]
    rfl
  · rw [hempty]
    exact List.Pairwise.nil
  · rw [hempty]
    exact nofun
  · unfold DeferQueue.new at h
    split at h
    · cases h
    · split at h <;> cases h
      rfl

/-- Items that leave from the front are written down as freed. -/
theorem Balanced.releases (h : Balanced capacity l) (hr : l.queue.Releases freed q')
    (hs : q'.Sound) (hq : q'.capacity = l.queue.capacity) (ht : l.tracker.token ≤ t.token) :
    Balanced capacity ⟨q', t, l.freed ++ freed, l.offers⟩ := by
  refine ⟨?_, ?_, ?_, hs, hq.trans h.capacity⟩
  · rw [List.append_assoc, ← hr.items]
    exact h.items
  · exact h.tokens.sublist (hr.suffix.sublist.map Ticket.token)
  · exact fun x hx => Nat.le_trans (h.issued x (hr.suffix.subset hx)) ht

theorem Balanced.enqueue (h : Balanced capacity l) (item : Nat) :
    Balanced capacity (l.after (.enqueue item)) := by
  have hsent := sent_enqueue l.queue item l.tracker
  obtain ⟨left, hreleases, hcapacity, hend⟩ := hsent.cases
  have hitems := h.items
  rw [hreleases.items, ← List.append_assoc] at hitems
  have htokens := h.tokens.sublist (hreleases.suffix.sublist.map Ticket.token)
  have hissued : ∀ x ∈ left.pending, x.token ≤ l.tracker.token :=
    fun x hx => h.issued x (hreleases.suffix.subset hx)
  rcases hend with ⟨hanswer, htracker, hpending⟩ | ⟨hanswer, htracker, hpending⟩
  · refine ⟨?_, ?_, ?_, h.sound.sent hsent, hcapacity.trans h.capacity⟩
    · simp only [after, accepted, hpending, hanswer, List.filter_append, List.map_append,
        ← List.append_assoc, hitems]
      rfl
    · simp only [after, hpending, List.map_append]
      refine List.pairwise_append.mpr ⟨htokens, List.pairwise_singleton .., ?_⟩
      intro token hmem token' hmem'
      obtain ⟨x, hx, rfl⟩ := List.mem_map.mp hmem
      obtain rfl := List.mem_singleton.mp hmem'
      exact Nat.lt_succ_of_le (hissued x hx)
    · simp only [after, hpending, htracker]
      intro x hx
      rcases List.mem_append.mp hx with hx | hx
      · exact Nat.le_succ_of_le (hissued x hx)
      · obtain rfl := List.mem_singleton.mp hx
        exact Nat.le_refl _
  · refine ⟨?_, ?_, ?_, h.sound.sent hsent, hcapacity.trans h.capacity⟩
    · simp only [after, accepted, hpending, hanswer, List.filter_append, List.map_append, hitems]
      exact (List.append_nil _).symm
    · simpa only [after, hpending] using htokens
    · simpa only [after, hpending, htracker] using hissued

/-- Every call leaves the books in order. -/
theorem Balanced.after (h : Balanced capacity l) (call : QueueCall) :
    Balanced capacity (l.after call) := by
  cases call with
  | enqueue item => exact h.enqueue item
  | reclaim max =>
    exact h.releases (releases_takeSafe l.tracker max l.queue) (h.sound.takeSafe l.tracker max)
      (bounds_takeSafe l.tracker max l.queue).1 (Nat.le_refl _)
  | drain meanwhile =>
    exact h.releases (releases_drain l.queue l.tracker meanwhile)
      (h.sound.drain l.tracker meanwhile) (capacity_drain ..) (token_drain ..)
  | tracker call =>
    exact ⟨h.items, h.tokens, fun x hx => Nat.le_trans (h.issued x hx) (l.tracker.token_serve call),
      h.sound, h.capacity⟩

theorem Balanced.foldl_after (h : Balanced capacity l) (calls : List QueueCall) :
    Balanced capacity (calls.foldl Ledger.after l) := by
  induction calls generalizing l with
  | nil => exact h
  | cons call calls ih => exact ih (h.after call)

/-- Whatever is called on a queue and its tracker, the items it freed and then those that wait
are the items it took, in order. An item it only ever turned away is in neither place, those that
wait have growing tokens, and they are never more than fit. -/
theorem freed_append_pending {threshold batch : Nat}
    (hnew : DeferQueue.new capacity threshold batch = .ok q) (t : Tracker)
    (calls : List QueueCall) :
    let l := calls.foldl Ledger.after ⟨q, t, [], []⟩
    l.freed ++ (l.queue.parked.toList ++ l.queue.waiting).map Ticket.item = l.accepted ∧
    (∀ item, (∀ offer ∈ l.offers, offer.1 = item → offer.2.isOk = false) →
      item ∉ l.freed ++ (l.queue.parked.toList ++ l.queue.waiting).map Ticket.item) ∧
    ((l.queue.parked.toList ++ l.queue.waiting).map Ticket.token).Pairwise (· < ·) ∧
    l.queue.length ≤ l.queue.capacity ∧ l.queue.capacity = capacity := by
  intro l
  have hbalanced := (balanced_new hnew t).foldl_after calls
  refine ⟨hbalanced.items, ?_, hbalanced.tokens, hbalanced.sound.fits, hbalanced.capacity⟩
  intro item hturned hmem
  obtain ⟨offer, hoffer, rfl⟩ := List.mem_map.mp (hbalanced.items ▸ hmem : item ∈ l.accepted)
  obtain ⟨hmade, hok⟩ := List.mem_filter.mp hoffer
  rw [hturned offer hmade rfl] at hok
  cases hok

/-- A queue of two with a reader inside: the third item makes room for itself, the fourth finds
the second parked and is turned away. -/
theorem freed_append_pending_parked :
    let calls : List QueueCall := [.tracker (.reader .register), .tracker (.reader (.online 0)),
      .enqueue 7, .tracker (.reader (.quiescent 0)), .enqueue 8, .tracker .start, .enqueue 9,
      .enqueue 10]
    let l := calls.foldl Ledger.after ⟨⟨2, 2, 1, none, []⟩, Tracker.new 1, [], []⟩
    l.freed ++ (l.queue.parked.toList ++ l.queue.waiting).map Ticket.item = l.accepted ∧
      l.freed = [7] ∧ l.queue.parked = some ⟨3, 8⟩ ∧ 10 ∉ l.accepted := by
  intro calls
  have hnew : DeferQueue.new 2 2 1 = .ok ⟨2, 2, 1, none, []⟩ := rfl
  exact ⟨(freed_append_pending hnew (Tracker.new 1) calls).1, by decide, by decide, by decide⟩

end Ledger

end DeferQueue

end Dir248
