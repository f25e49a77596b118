import Dir248.Proofs.Grace.Custody

/-!
# How far a pass gets

A pass over a queue stops at the first item whose period is not over. The items wait in the
order of their tokens and older periods end first, so no item behind that one could have gone
either: a pass takes out all that may go, up to its bound. An enqueue has no more to hope for
than its passes free, and so it is turned away only by a full queue whose oldest item must wait.

* **`DeferQueue.due`** — how many of the items that wait may go.
* **`DeferQueue.InTurn`** — whoever may go has only such items in front.
* **`InTurn.takeSafe`** — a pass takes out the due items, up to its bound, and leaves the others.
* **`reclaim_due_enqueue_blocked`** — the run: what a reclaim frees and when an enqueue fails.
-/

namespace Dir248

namespace DeferQueue

variable {q rest : DeferQueue} {t : Tracker} {x : Ticket}

/-- How many of the items that wait have passed their check. -/
def due (q : DeferQueue) (t : Tracker) : Nat := q.pending.countP fun x => t.check x.token

/-- An item that has passed its check has only such items in front of it. -/
def InTurn (q : DeferQueue) (t : Tracker) : Prop :=
  q.pending.Pairwise fun x y => t.check y.token = true → t.check x.token = true

/-- Items that wait in the order of their tokens wait in turn, whatever the readers have seen. -/
theorem inTurn_of_tokens (h : (q.pending.map Ticket.token).Pairwise (· < ·)) (t : Tracker) :
    q.InTurn t :=
  (List.pairwise_map.mp h).imp fun hlt => Tracker.check_of_le (Nat.le_of_lt hlt)

theorem InTurn.pop (h : q.InTurn t) (hpop : q.pop? = some (x, rest)) : rest.InTurn t := by
  rw [InTurn, (pending_pop q rest x hpop).1] at h
  exact (List.pairwise_cons.mp h).2

theorem due_pop (hpop : q.pop? = some (x, rest)) (hcheck : t.check x.token = true) :
    q.due t = rest.due t + 1 := by
  rw [due, (pending_pop q rest x hpop).1]
  exact List.countP_cons_of_pos hcheck

/-- While the oldest item must wait, all must. -/
theorem InTurn.due_of_blocked (h : q.InTurn t) (hb : q.Blocked t) : q.due t = 0 := by
  obtain ⟨x, hx, hcheck⟩ := hb
  obtain ⟨xs, hpending⟩ := List.head?_eq_some_iff.mp hx
  rw [InTurn, hpending] at h
  rw [due, hpending, List.countP_eq_zero]
  intro y hy hover
  rcases List.mem_cons.mp hy with rfl | hy
  · exact Bool.false_ne_true (hcheck.symm.trans hover)
  · exact Bool.false_ne_true (hcheck.symm.trans ((List.pairwise_cons.mp h).1 y hy hover))

/-- A pass takes out the items that may go, oldest first and up to its bound. -/
theorem InTurn.takeSafe (h : q.InTurn t) (max : Nat) :
    (DeferQueue.takeSafe t max q).freed =
        (q.pending.take (min max (q.due t))).map Ticket.item ∧
      (DeferQueue.takeSafe t max q).queue.pending = q.pending.drop (min max (q.due t)) := by
  induction max generalizing q with
  | zero =>
    rw [Nat.zero_min]
    exact ⟨rfl, rfl⟩
  | succ max ih =>
    cases hpop : q.pop? with
    | none =>
      have hempty : q.pending = [] := by
        refine Classical.byContradiction fun hne => ?_
        obtain ⟨x, rest, hsome⟩ := pop?_of_pending_ne_nil hne
        cases hpop.symm.trans hsome
      simp only [DeferQueue.takeSafe, hpop, hempty, List.take_nil, List.drop_nil, List.map_nil,
        and_self]
    | some popped =>
      obtain ⟨x, rest⟩ := popped
      obtain ⟨hpending, -⟩ := pending_pop q rest x hpop
      by_cases hcheck : t.check x.token = true
      · obtain ⟨hfreed, hleft⟩ := ih (h.pop hpop)
        rw [due_pop hpop hcheck, Nat.add_min_add_right, hpending, List.take_succ_cons,
          List.drop_succ_cons]
        simp only [DeferQueue.takeSafe, hpop, if_pos hcheck, hfreed, hleft, List.map_cons, and_self]
      · have hb : q.Blocked t := ⟨x, by rw [hpending, List.head?_cons], Bool.not_eq_true _ ▸ hcheck⟩
        rw [h.due_of_blocked hb, Nat.min_zero]
        exact hb.takeSafe (max + 1)

theorem due_le_length (q : DeferQueue) (t : Tracker) : q.due t ≤ q.length :=
  length_pending q ▸ List.countP_le_length

/-- An item is turned away exactly by a full queue whose oldest item must wait, and then nothing
has happened. -/
theorem Sound.enqueue_rejected_iff (h : q.Sound) (item : Nat) (t : Tracker) :
    (q.enqueue item t).value.answer = .error .reclamationUnavailable ↔
      q.length = q.capacity ∧ q.Blocked t := by
  refine ⟨fun hr => (rejected_enqueue h hr).symm, fun ⟨hfull, hb⟩ => ?_⟩
  exact (hb.rejects hfull (sent_enqueue q item t)).1

/-- An enqueue that fails has no other reason than the queue, and it leaves no trace. -/
theorem Sound.enqueue_error (h : q.Sound) {item : Nat} {e : Failure}
    (hr : (q.enqueue item t).value.answer = .error e) :
    e = .reclamationUnavailable ∧ (q.enqueue item t).value.freed = [] ∧
      (q.enqueue item t).value.tracker = t ∧
      (q.enqueue item t).value.queue.pending = q.pending := by
  have hsent := sent_enqueue q item t
  have hnone := ((rejected_enqueue h hr).1.sent hsent).1
  obtain ⟨left, hreleases, -, ⟨hok, -⟩ | ⟨hanswer, htracker, hpending⟩⟩ := hsent.cases
  · cases hr.symm.trans hok
  · obtain ⟨xs, hsplit, hfreed⟩ := hreleases
    obtain rfl : xs = [] := List.map_eq_nil_iff.mp (hfreed.symm.trans hnone)
    exact ⟨Except.error.inj (hr.symm.trans hanswer), hnone, htracker, hpending.trans hsplit.symm⟩

namespace Ledger

/-- Whatever was called on a queue and its tracker before: a reclaim frees the oldest items, as
many as have passed their check up to its bound, and the others still wait. An enqueue fails
exactly if the queue is full and its oldest item must wait, and then it frees nothing, opens no
grace period and leaves the items as they are. -/
theorem reclaim_due_enqueue_blocked {capacity threshold batch : Nat}
    (hnew : DeferQueue.new capacity threshold batch = .ok q) (t : Tracker)
    (calls : List QueueCall) :
    let l := calls.foldl Ledger.after ⟨q, t, [], []⟩
    (∀ max : Nat,
      let n := min max (l.queue.due l.tracker)
      let taken := (l.queue.reclaim max l.tracker).value
      taken.freed = (l.queue.pending.take n).map Ticket.item ∧ taken.freed.length = n ∧
      taken.queue.pending = l.queue.pending.drop n ∧ taken.queue.length = l.queue.length - n) ∧
    (∀ item : Nat,
      let sent := (l.queue.enqueue item l.tracker).value
      (sent.answer = .error .reclamationUnavailable ↔
        l.queue.length = l.queue.capacity ∧ l.queue.Blocked l.tracker) ∧
      (∀ e : Failure, sent.answer = .error e →
        e = .reclamationUnavailable ∧ sent.freed = [] ∧ sent.tracker = l.tracker ∧
          sent.queue.pending = l.queue.pending)) := by
  intro l
  have hbalanced := (balanced_new hnew t).foldl_after calls
  refine ⟨fun max => ?_, fun item =>
    ⟨hbalanced.sound.enqueue_rejected_iff item l.tracker, fun e => hbalanced.sound.enqueue_error⟩⟩
  intro n taken
  have hinTurn := inTurn_of_tokens hbalanced.tokens l.tracker
  obtain ⟨hfreed, hleft⟩ := hinTurn.takeSafe max
  have hle : n ≤ l.queue.pending.length := by
    rw [length_pending]
    exact Nat.le_trans (Nat.min_le_right ..) (due_le_length l.queue l.tracker)
  refine ⟨hfreed, ?_, hleft, ?_⟩
  · rw [show taken.freed = _ from hfreed, List.length_map, List.length_take, Nat.min_eq_left hle]
  · rw [← length_pending, ← length_pending, show taken.queue.pending = _ from hleft,
      List.length_drop]

/-- A queue of two behind a reader: with the reader inside before both items the third is turned
away, and once it has reported between them a reclaim frees the first and no more. -/
theorem reclaim_due_enqueue_blocked_reader :
    let books : List QueueCall → Ledger := fun calls => calls.foldl after
      ⟨⟨2, 2, 1, none, []⟩, Tracker.new 1, [], []⟩
    let full := books [.tracker (.reader .register), .tracker (.reader (.online 0)), .enqueue 7,
      .enqueue 8]
    let mixed := books [.tracker (.reader .register), .tracker (.reader (.online 0)), .enqueue 7,
      .tracker (.reader (.quiescent 0)), .enqueue 8]
    (full.queue.enqueue 9 full.tracker).value.answer = .error .reclamationUnavailable ∧
      (full.queue.enqueue 9 full.tracker).value.queue.pending = full.queue.pending ∧
      mixed.queue.due mixed.tracker = 1 ∧ mixed.queue.length = 2 ∧
      (mixed.queue.reclaim 5 mixed.tracker).value.freed = [7] := by
  intro books full mixed
  have hnew : DeferQueue.new 2 2 1 = .ok ⟨2, 2, 1, none, []⟩ := rfl
  obtain ⟨-, hfull⟩ := reclaim_due_enqueue_blocked hnew (Tracker.new 1)
    [.tracker (.reader .register), .tracker (.reader (.online 0)), .enqueue 7, .enqueue 8]
  obtain ⟨hmixed, -⟩ := reclaim_due_enqueue_blocked hnew (Tracker.new 1)
    [.tracker (.reader .register), .tracker (.reader (.online 0)), .enqueue 7,
      .tracker (.reader (.quiescent 0)), .enqueue 8]
  have hrejected := (hfull 9).1.mpr ⟨by decide, ⟨2, 7⟩, by decide, by decide⟩
  have hfreed : (mixed.queue.reclaim 5 mixed.tracker).value.freed = [7] := by
    rw [(hmixed 5).1]
    decide
  exact ⟨hrejected, ((hfull 9).2 _ hrejected).2.2.2, by decide, by decide, hfreed⟩

end Ledger

end DeferQueue

end Dir248
