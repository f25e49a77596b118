import Dir248.Groups
import Dir248.Proofs.Grace.Passes
import Mathlib.Data.List.Basic

/-!
# What the pool does, move by move

Whatever the pool does is a chain of small moves of groups, and one list of moves says all
there is to say about it: who may free a group, where a group may go, and what is stored
meanwhile. Between two moves some groups lie on the writer's desk, outside of every list.
Those that were unlinked are held until no reader can be inside them any more; then they are
safe, as fresh groups are.

* **`Desk`**, **`PoolMove`** — the groups between two lists, and the moves.
* **`Plane.defer_moves`** to **`Plane.drain_moves`** — the operations as chains of moves.
-/

namespace Dir248

/-- A plane and the groups on the writer's desk: those a reader may still be inside, and
those no reader is inside. -/
structure Desk where
  plane : Plane
  held : List Nat
  safe : List Nat

/-- The moves of the pool. Only safe groups are freed, and a held group becomes safe by a
check of a ticket behind it, by a wait, or where no readers are watched at all. -/
inductive PoolMove : Desk → List Event → Desk → Prop
  | quiet {d : Desk} {es : List Event} (h : ∀ e ∈ es, e.IsQuiet) : PoolMove d es d
  | sort {p : Plane} {held held' safe safe' : List Nat} (h : held.Perm held')
      (h' : safe.Perm safe') : PoolMove ⟨p, held, safe⟩ [] ⟨p, held', safe'⟩
  | restrand {p : Plane} {held safe : List Nat} (stranded : List Nat) :
      PoolMove ⟨p, held, safe⟩ [] ⟨p.setStranded stranded, held, safe⟩
  | pass {p : Plane} {held safe : List Nat} {q : DeferQueue} (max : Nat)
      (hq : p.pool.reclaimer = .deferring q) :
      PoolMove ⟨p, held, safe⟩ [] ⟨p.setQueue (q.takeSafe p.tracker max).queue, held,
        (q.takeSafe p.tracker max).freed ++ safe⟩
  | push {p : Plane} {held safe : List Nat} {q : DeferQueue} {g : Nat}
      (hq : p.pool.reclaimer = .deferring q) (hroom : q.length < q.capacity) :
      PoolMove ⟨p, g :: held, safe⟩ []
        ⟨{ p.setQueue { q with waiting := q.waiting ++ [⟨p.tracker.start.token, g⟩] } with
            tracker := p.tracker.start }, held, safe⟩
  | empty {p : Plane} {held safe : List Nat} {q : DeferQueue}
      (hq : p.pool.reclaimer = .deferring q) :
      PoolMove ⟨p, held, safe⟩ [] ⟨p.setQueue { q with parked := none, waiting := [] },
        q.pending.map Ticket.item ++ held, safe⟩
  | wait {p : Plane} {gs held safe : List Nat} (meanwhile : Meanwhile) :
      PoolMove ⟨p, gs ++ held, safe⟩ (p.tracker.synchronize meanwhile).events
        ⟨{ p with tracker := (p.tracker.synchronize meanwhile).value }, held, gs ++ safe⟩
  | unwatched {p : Plane} {gs held safe : List Nat} (hp : p.pool.reclaimer = .unbound) :
      PoolMove ⟨p, gs ++ held, safe⟩ [] ⟨p, held, gs ++ safe⟩
  | free {p : Plane} {held safe : List Nat} {g : Nat} :
      PoolMove ⟨p, held, g :: safe⟩ (p.free g).events ⟨(p.free g).value, held, safe⟩
  | claim {p : Plane} {held safe : List Nat} {g : Nat} (hg : g < p.arrays.groups)
      (hfree : (p.arrays.slotAt (groupStart g)).occupied = false) :
      PoolMove ⟨p, held, safe⟩ (p.claim g).events ⟨(p.claim g).value, held, g :: safe⟩

namespace Plane

open Traced

/-- The desk between two operations: only the stranded groups are in hand. -/
def desk (p : Plane) : Desk := ⟨p, p.pool.stranded, []⟩

theorem leads_quiet {α : Type} {x : Traced α} (h : x.Quiet) (d : Desk) :
    Leads PoolMove d x fun _ => d :=
  .single (.quiet h)

theorem leads_log {β : Type} {n : Note} {k : Unit → Traced β} {d : Desk} {f : β → Desk}
    (h : (Event.note n).IsQuiet) (hk : Leads PoolMove d (k ()) f) :
    Leads PoolMove d (log n >>= k) f :=
  (leads_quiet (quiet_log h) d).bind hk

theorem leads_report {p : Plane} {β : Type} {k : Unit → Traced β} {d : Desk} {f : β → Desk}
    (hk : Leads PoolMove d (k ()) f) : Leads PoolMove d (p.report >>= k) f :=
  (leads_quiet (Quiet.bind (quiet_require _ _) (quiet_publish _)) d).bind hk

/-- Groups on the desk may change their order. -/
theorem chain_sort (p : Plane) {held held' safe safe' : List Nat} (hh : held.Perm held')
    (hs : safe.Perm safe') : Chain PoolMove ⟨p, held, safe⟩ [] ⟨p, held', safe'⟩ :=
  .single (.sort hh hs)

/-! ### Freeing and queueing -/

theorem freeAll_cons (p : Plane) (g : Nat) (gs : List Nat) :
    p.freeAll (g :: gs) = p.free g >>= fun p => p.freeAll gs := List.foldlM_cons ..

theorem stranded_freeAll (p : Plane) (gs : List Nat) :
    (p.freeAll gs).value.pool.stranded = p.pool.stranded := by
  induction gs generalizing p with
  | nil => rfl
  | cons g gs ih =>
    rw [freeAll_cons]
    exact ih _

theorem freeAll_moves (p : Plane) (gs held safe : List Nat) :
    Leads PoolMove ⟨p, held, gs ++ safe⟩ (p.freeAll gs) fun p => ⟨p, held, safe⟩ := by
  induction gs generalizing p with
  | nil => exact leads_pure rfl
  | cons g gs ih =>
    rw [freeAll_cons]
    have hfree : Leads PoolMove ⟨p, held, g :: (gs ++ safe)⟩ (p.free g)
        fun p => ⟨p, held, gs ++ safe⟩ := .single .free
    exact hfree.bind (ih _)

/-- What is left in hand of a group that was sent somewhere. -/
def unplaced (group : Nat) : Except Failure Unit → List Nat
  | .ok _ => []
  | .error _ => [group]

/-- Two passes in a row. -/
theorem chain_passes (p : Plane) (held safe : List Nat) {q : DeferQueue}
    (hq : p.pool.reclaimer = .deferring q) (k l : Nat) :
    Chain PoolMove ⟨p, held, safe⟩ []
      ⟨p.setQueue ((q.takeSafe p.tracker k).queue.takeSafe p.tracker l).queue, held,
        (q.takeSafe p.tracker k).freed ++
          ((q.takeSafe p.tracker k).queue.takeSafe p.tracker l).freed ++ safe⟩ := by
  have hfirst : PoolMove ⟨p, held, safe⟩ [] _ := .pass k hq
  have hsecond : PoolMove ⟨p.setQueue (q.takeSafe p.tracker k).queue, held,
    (q.takeSafe p.tracker k).freed ++ safe⟩ [] _ := .pass l rfl
  refine (Chain.single hfirst).then_silent
    ((Chain.single hsecond).then_silent (chain_sort _ (.refl _) ?_))
  rw [List.append_assoc]
  exact List.perm_append_comm_assoc ..

/-- An enqueue is two passes, and a push if there is room. -/
theorem chain_sent (p : Plane) (g : Nat) (held safe : List Nat) {q : DeferQueue}
    (hq : p.pool.reclaimer = .deferring q) {sent : DeferQueue.Enqueued}
    (hsent : q.Sent g p.tracker sent) :
    Chain PoolMove ⟨p, g :: held, safe⟩ []
      ⟨{ p.setQueue sent.queue with tracker := sent.tracker }, unplaced g sent.answer ++ held,
        sent.freed ++ safe⟩ := by
  cases hsent with
  | queued k l hroom =>
    have hcap := (DeferQueue.bounds_takeSafe p.tracker l (q.takeSafe p.tracker k).queue).1.trans
      (DeferQueue.bounds_takeSafe p.tracker k q).1
    exact (chain_passes p (g :: held) safe hq k l).then_silent
      (.single (.push rfl (by rwa [hcap])))
  | rejected k l hfull => exact chain_passes p (g :: held) safe hq k l

/-- A group that is sent to the queue comes in, or it stays in hand. -/
theorem defer_moves (p : Plane) (g : Nat) (held safe : List Nat) :
    Leads PoolMove ⟨p, g :: held, safe⟩ (p.defer g)
      fun out => ⟨out.state, unplaced g out.answer ++ held, safe⟩ := by
  unfold defer
  split
  · next q hq =>
    have hsent := chain_sent p g held safe hq (DeferQueue.sent_enqueue q g p.tracker)
    have hquiet := leads_quiet (DeferQueue.quiet_enqueue q g p.tracker) ⟨p, g :: held, safe⟩
    have henqueue : Leads PoolMove ⟨p, g :: held, safe⟩ (q.enqueue g p.tracker) fun sent =>
        ⟨{ p.setQueue sent.queue with tracker := sent.tracker }, unplaced g sent.answer ++ held,
          sent.freed ++ safe⟩ := hquiet.last hsent
    exact henqueue.bind ((freeAll_moves _ _ _ safe).bind (leads_pure rfl))
  · exact leads_pure rfl

theorem stranded_defer (p : Plane) (g : Nat) :
    (p.defer g).value.state.pool.stranded = p.pool.stranded := by
  unfold defer
  split
  · exact stranded_freeAll ..
  · rfl

/-- Stranded groups on the desk go to the queue, and those it does not take are stranded. -/
theorem requeue_moves (p : Plane) (gs held safe : List Nat) :
    Leads PoolMove ⟨p, gs ++ held, safe⟩ (p.requeue gs)
      fun p => ⟨p, p.pool.stranded ++ held, safe⟩ := by
  induction gs generalizing p with
  | nil => exact .single (.restrand [])
  | cons g older ih =>
    rw [requeue]
    refine (defer_moves p g (older ++ held) safe).bind ?_
    obtain ⟨s, answer⟩ := (p.defer g).value
    cases answer with
    | ok u => exact ih s
    | error e => exact .single (.restrand (g :: older))

/-! ### Operations -/

/-- Stranded groups go to the queue again. -/
theorem requeue_desk (p : Plane) (gs safe : List Nat) :
    Leads PoolMove ⟨p, gs, safe⟩ (p.requeue gs) fun p => ⟨p, p.pool.stranded, safe⟩ := by
  have hmoves := requeue_moves p gs [] safe
  simpa only [List.append_nil] using hmoves

/-- One pass over the queue, and stranded groups take the room it made. -/
theorem reclaim_moves (p : Plane) : Leads PoolMove p.desk p.reclaim fun out => out.state.desk := by
  unfold reclaim
  split
  · next q hq =>
    have hquiet := leads_quiet (DeferQueue.quiet_reclaim q q.batch p.tracker) p.desk
    have htaken : Leads PoolMove p.desk (q.reclaim q.batch p.tracker) fun taken =>
        ⟨p.setQueue taken.queue, p.pool.stranded, taken.freed ++ []⟩ :=
      hquiet.last (.single (.pass q.batch hq))
    refine htaken.bind ((freeAll_moves _ _ _ []).bind ?_)
    have hstranded := stranded_freeAll (p.setQueue (q.reclaim q.batch p.tracker).value.queue)
      (q.reclaim q.batch p.tracker).value.freed
    rw [show p.pool.stranded = _ from hstranded.symm]
    exact (requeue_desk _ _ []).bind (leads_report (leads_pure rfl))
  · exact leads_pure rfl

theorem freeGroup?_eq_some {t : Arrays} {g : Nat} (h : freeGroup? t = some g) :
    g < t.groups ∧ (t.slotAt (groupStart g)).occupied = false := by
  refine ⟨List.mem_range.mp (List.mem_of_find?_eq_some h), ?_⟩
  simpa using List.find?_some h

/-- A pass when no group is free. -/
theorem makeRoom_moves (p : Plane) : Leads PoolMove p.desk p.makeRoom fun p => p.desk := by
  unfold makeRoom
  split
  · exact leads_log trivial ((reclaim_moves p).bind (leads_pure rfl))
  · exact leads_pure rfl

/-- What an allocation puts into the writer's hands. -/
def allotted : Except Failure Nat → List Nat
  | .ok g => [g]
  | .error _ => []

/-- A group is handed out, maybe after a pass over the queue. -/
theorem allocate_moves (p : Plane) : Leads PoolMove p.desk p.allocate
    fun out => ⟨out.state, out.state.pool.stranded, allotted out.answer⟩ := by
  refine (makeRoom_moves p).bind ?_
  generalize p.makeRoom.value = p
  split
  · next g hg =>
    obtain ⟨hlt, hfree⟩ := freeGroup?_eq_some hg
    have hclaim : Leads PoolMove p.desk (p.claim g) fun p => ⟨p, p.pool.stranded, [g]⟩ :=
      .single (.claim hlt hfree)
    exact hclaim.bind (leads_pure rfl)
  · exact (leads_quiet (quiet_publish _) _).bind (leads_log trivial (leads_pure rfl))

/-- The writer waits, and held groups become safe. -/
theorem synchronize_moves (p : Plane) (gs held safe : List Nat) (meanwhile : Meanwhile) :
    Leads PoolMove ⟨p, gs ++ held, safe⟩ (p.synchronize meanwhile)
      fun p => ⟨p, held, gs ++ safe⟩ := by
  have hwait : Leads PoolMove ⟨p, gs ++ held, safe⟩ (p.tracker.synchronize meanwhile)
      fun tracker => ⟨{ p with tracker }, held, gs ++ safe⟩ := .single (.wait meanwhile)
  exact hwait.bind (leads_pure rfl)

theorem synchronizeIfBound_moves (p : Plane) (gs held safe : List Nat) (meanwhile : Meanwhile) :
    Leads PoolMove ⟨p, gs ++ held, safe⟩ (p.synchronizeIfBound meanwhile)
      fun p => ⟨p, held, gs ++ safe⟩ := by
  unfold synchronizeIfBound
  split
  · exact synchronize_moves p gs held safe meanwhile
  · next hb =>
    have hunbound : p.pool.reclaimer = .unbound := by simpa [Pool.isBound] using hb
    exact .single (.unwatched hunbound)

theorem stranded_synchronizeIfBound (p : Plane) (meanwhile : Meanwhile) :
    (p.synchronizeIfBound meanwhile).value.pool.stranded = p.pool.stranded := by
  unfold synchronizeIfBound
  split <;> rfl

/-- An unlinked group comes back. -/
theorem release_moves (p : Plane) (g : Nat) (meanwhile : Meanwhile) :
    Leads PoolMove ⟨p, g :: p.pool.stranded, []⟩ (p.release g meanwhile)
      fun out => out.state.desk := by
  have hfree : ∀ p : Plane, Leads PoolMove ⟨p, p.pool.stranded, [g]⟩ (p.free g)
      fun p => p.desk := fun p => .single .free
  unfold release
  split
  · next hp =>
    have hclear : PoolMove ⟨p, [g] ++ p.pool.stranded, []⟩ [] ⟨p, p.pool.stranded, [g] ++ []⟩ :=
      .unwatched hp
    exact ((hfree p).first (.single hclear)).bind (leads_report (leads_pure rfl))
  · have hwait : Leads PoolMove ⟨p, g :: p.pool.stranded, []⟩ (p.synchronize meanwhile)
        fun p => ⟨p, p.pool.stranded, [g]⟩ :=
      synchronize_moves p [g] p.pool.stranded [] meanwhile
    exact hwait.bind ((hfree _).bind (leads_report (leads_pure rfl)))
  · -- the stranded groups go first, and the new one behind them
    have hback : ∀ l : List Nat, (g :: l).Perm (l ++ [g]) :=
      fun l => (List.perm_append_singleton g l).symm
    refine Leads.first (chain_sort p (hback _) (.refl _)) ?_
    refine (requeue_moves p p.pool.stranded [g] []).bind ?_
    generalize (p.requeue p.pool.stranded).value = p
    refine Leads.first (chain_sort p (hback _).symm (.refl _)) ?_
    refine (defer_moves p g p.pool.stranded []).bind ?_
    have hstranded := stranded_defer p g
    generalize (p.defer g).value = out at hstranded ⊢
    obtain ⟨s, answer⟩ := out
    rw [← hstranded]
    cases answer with
    | ok u => exact leads_report (leads_pure rfl)
    | error e =>
      refine leads_log trivial ?_
      refine Leads.first (.single (.restrand (g :: s.pool.stranded))) ?_
      exact leads_report (leads_pure rfl)

/-! ### Drains -/

/-- The queue is emptied, after a wait if there is anything in it. -/
theorem drainQueue_moves (p : Plane) (held safe : List Nat) (meanwhile : Meanwhile) :
    Leads PoolMove ⟨p, held, safe⟩ (p.drainQueue meanwhile)
      fun out => ⟨out.state, held, out.answer ++ safe⟩ := by
  unfold drainQueue
  split
  · next q hq =>
    have hdrain : Leads PoolMove ⟨p, held, safe⟩ (q.drain p.tracker meanwhile) fun drained =>
        ⟨{ p.setQueue drained.queue with tracker := drained.tracker }, held,
          drained.freed ++ safe⟩ := by
      unfold DeferQueue.drain
      split
      · have hsame : p.setQueue q = p := by
          rw [setQueue, ← hq]
        refine leads_pure ?_
        rw [hsame]
        rfl
      · refine Leads.first (.single (.empty hq)) ?_
        have hwait : Leads PoolMove
            ⟨p.setQueue { q with parked := none, waiting := [] },
              q.pending.map Ticket.item ++ held, safe⟩
            (p.tracker.synchronize meanwhile) fun tracker =>
              ⟨{ p.setQueue { q with parked := none, waiting := [] } with tracker }, held,
                q.pending.map Ticket.item ++ safe⟩ := .single (.wait meanwhile)
        exact hwait.bind (leads_log trivial (leads_pure rfl))
    exact hdrain.bind (leads_pure rfl)
  · exact leads_pure rfl

theorem stranded_drainQueue (p : Plane) (meanwhile : Meanwhile) :
    (p.drainQueue meanwhile).value.state.pool.stranded = p.pool.stranded := by
  unfold drainQueue
  split <;> rfl

/-- All stranded groups are freed, after a wait if readers are watched. -/
theorem settleStranded_moves (p : Plane) (meanwhile : Meanwhile) :
    Leads PoolMove p.desk (p.settleStranded meanwhile) fun p => p.desk := by
  unfold settleStranded
  split
  · exact leads_pure rfl
  · have hwait := synchronizeIfBound_moves p p.pool.stranded [] [] meanwhile
    rw [List.append_nil] at hwait
    refine hwait.bind ?_
    rw [← stranded_synchronizeIfBound p meanwhile]
    generalize (p.synchronizeIfBound meanwhile).value = p
    have hreverse : p.pool.stranded.Perm (p.pool.stranded.reverse ++ []) := by
      rw [List.append_nil]
      exact (List.reverse_perm _).symm
    refine Leads.first (chain_sort p (.refl []) hreverse) ?_
    exact (freeAll_moves p _ [] []).bind (.single (.restrand []))

/-- Every pending group is freed. -/
theorem drain_moves (p : Plane) (meanwhile : Meanwhile) :
    Leads PoolMove p.desk (p.drain meanwhile) fun out => out.state.desk := by
  unfold drain
  refine (drainQueue_moves p p.pool.stranded [] meanwhile).bind ?_
  rw [← stranded_drainQueue p meanwhile]
  generalize (p.drainQueue meanwhile).value = queued
  refine (freeAll_moves queued.state queued.answer queued.state.pool.stranded []).bind ?_
  rw [← stranded_freeAll queued.state queued.answer]
  exact (settleStranded_moves _ meanwhile).bind (leads_report (leads_pure rfl))

end Plane

end Dir248
