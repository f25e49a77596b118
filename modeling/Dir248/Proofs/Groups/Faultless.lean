import Dir248.Proofs.Arrays.Admission

/-!
# The pool relies on nothing that fails

A group is wiped and counted as given back while it is on the writer's desk, so it is a group of
the table and one of those in use; and a queue is only pushed to after its length was compared
with its capacity. The account of the groups along the moves of an operation gives the first,
and the second needs no history at all.

* **`DeferQueue.faultless_enqueue`** — an enqueue never finds the queue full at its push.
* **`Desk.Accounted.free_safe`** — a safe group can be given back.
* **`Plane.faultless_reclaim`** to **`Plane.faultless_reset`** — one law for each operation.
-/

namespace Dir248

open Traced

/-! ### The defer queue -/

namespace DeferQueue

theorem faultless_reclaim (q : DeferQueue) (max : Nat) (t : Tracker) :
    (q.reclaim max t).Faultless :=
  (faultless_logIf _ _).bind (faultless_pure _)

theorem faultless_push {q : DeferQueue} (hroom : q.length < q.capacity) (item : Nat) (t : Tracker)
    (freed : List Nat) : (q.push item t freed).Faultless := by
  have hwaiting : q.waiting.length < q.capacity := Nat.lt_of_le_of_lt (Nat.le_add_right _ _) hroom
  simp only [push, if_pos hwaiting]
  exact (faultless_log _).bind (faultless_pure _)

/-- Whatever the passes freed, an item is pushed only where there is room. -/
theorem faultless_enqueue (q : DeferQueue) (item : Nat) (t : Tracker) :
    (q.enqueue item t).Faultless := by
  have hfirst : (q.firstPass t).Faultless := by
    unfold firstPass
    split
    · exact faultless_reclaim q q.batch t
    · exact faultless_pure _
  obtain ⟨k, hk⟩ := q.value_firstPass t
  have hcapacity := (bounds_takeSafe t k q).1
  rw [enqueue_eq]
  refine hfirst.bind ?_
  rw [hk, afterPass]
  split
  · next hroom => exact faultless_push (by rwa [hcapacity]) ..
  · refine (faultless_reclaim _ q.batch t).bind ?_
    have hcapacity' := (bounds_takeSafe t q.batch (takeSafe t k q).queue).1.trans hcapacity
    rw [value_reclaim]
    split
    · next hroom => exact faultless_push (by rwa [hcapacity']) ..
    · exact (faultless_log _).bind (faultless_pure _)

theorem faultless_synchronize (t : Tracker) (meanwhile : Meanwhile) :
    (t.synchronize meanwhile).Faultless := by
  refine List.filterMap_eq_nil_iff.mpr fun e he => ?_
  rcases List.mem_append.mp he with he | he
  · obtain ⟨step, -, rfl⟩ := List.mem_map.mp he
    rfl
  · rw [List.mem_singleton.mp he]
    rfl

theorem faultless_drain (q : DeferQueue) (t : Tracker) (meanwhile : Meanwhile) :
    (q.drain t meanwhile).Faultless := by
  unfold drain
  split
  · exact faultless_pure _
  · exact (faultless_synchronize t meanwhile).bind ((faultless_log _).bind (faultless_pure _))

end DeferQueue

/-! ### Groups on the desk -/

section Desk

variable {p : Plane} {g : Nat} {held safe : List Nat}

/-- A group on the desk is a group of the table, and one of those in use. -/
theorem Desk.Accounted.free_safe (ha : Desk.Accounted ⟨p, held, g :: safe⟩) :
    g < p.arrays.groups ∧ 0 < p.pool.inUse := by
  have hmem : g ∈ Desk.away ⟨p, held, g :: safe⟩ := Desk.mem_away_of_safe List.mem_cons_self
  exact ⟨(ha.kept hmem).1, Nat.lt_of_lt_of_le (List.length_pos_of_mem hmem) ha.length_le⟩

end Desk

namespace Plane

variable {p : Plane} {g : Nat} {held safe : List Nat}

theorem faultless_report (ha : Desk.Accounted ⟨p, held, safe⟩) : p.report.Faultless :=
  (faultless_require (decide_eq_true ha.inUse_le) .groupCount).bind (faultless_publish _)

theorem faultless_free (ha : Desk.Accounted ⟨p, held, g :: safe⟩) : (p.free g).Faultless := by
  obtain ⟨hg, huse⟩ := ha.free_safe
  refine (Arrays.faultless_storeGroup hg rfl).bind ?_
  exact (faultless_require (decide_eq_true huse) .groupCount).bind
    ((faultless_publish _).bind (faultless_pure _))

theorem faultless_freeAll (gs : List Nat) (ha : Desk.Accounted ⟨p, held, gs ++ safe⟩) :
    (p.freeAll gs).Faultless := by
  induction gs generalizing p with
  | nil => exact faultless_pure p
  | cons g gs ih =>
    rw [freeAll_cons]
    exact (faultless_free ha).bind (ih (PoolMove.free.accounted ha))

theorem faultless_claim (ha : Desk.Accounted ⟨p, held, safe⟩) (hg : g < p.arrays.groups)
    (hfree : (p.arrays.slotAt (groupStart g)).occupied = false) : (p.claim g).Faultless := by
  have hclaimed : Desk.Accounted ⟨(p.claim g).value, held, g :: safe⟩ :=
    (PoolMove.claim hg hfree).accounted ha
  refine (Arrays.faultless_storeGroup hg rfl).bind ((faultless_publish _).bind ?_)
  exact (faultless_report hclaimed).bind ((faultless_log _).bind (faultless_pure _))

/-! ### Queueing -/

theorem faultless_defer (ha : Desk.Accounted ⟨p, g :: held, safe⟩) : (p.defer g).Faultless := by
  unfold defer
  split
  · next q hq =>
    have hsent := accounted_of_chain
      (chain_sent p g held safe hq (DeferQueue.sent_enqueue q g p.tracker)) ha
    exact (q.faultless_enqueue g p.tracker).bind
      ((faultless_freeAll _ hsent).bind (faultless_pure _))
  · exact faultless_pure _

theorem faultless_requeue (gs held : List Nat) (ha : Desk.Accounted ⟨p, gs ++ held, safe⟩) :
    (p.requeue gs).Faultless := by
  induction gs generalizing p with
  | nil => exact faultless_pure _
  | cons g older ih =>
    have hsent := accounted_of_chain (defer_moves p g (older ++ held) safe) ha
    rw [requeue]
    refine (faultless_defer ha).bind ?_
    generalize (p.defer g).value = out at hsent ⊢
    obtain ⟨s, answer⟩ := out
    cases answer with
    | ok u => exact ih hsent
    | error e => exact faultless_pure _

/-! ### Operations -/

theorem faultless_reclaim (ha : p.desk.Accounted) : p.reclaim.Faultless := by
  unfold reclaim
  split
  · next q hq =>
    have htaken : Desk.Accounted ⟨p.setQueue (q.reclaim q.batch p.tracker).value.queue,
        p.pool.stranded, (q.reclaim q.batch p.tracker).value.freed ++ []⟩ :=
      (PoolMove.pass q.batch hq).accounted ha
    have hfreed := accounted_of_chain (freeAll_moves _ _ _ []) htaken
    have hstranded := stranded_freeAll (p.setQueue (q.reclaim q.batch p.tracker).value.queue)
      (q.reclaim q.batch p.tracker).value.freed
    rw [show p.pool.stranded = _ from hstranded.symm] at hfreed
    refine (q.faultless_reclaim q.batch p.tracker).bind ((faultless_freeAll _ htaken).bind ?_)
    refine (faultless_requeue _ [] (by rwa [List.append_nil])).bind ?_
    exact (faultless_report (accounted_of_chain (requeue_desk _ _ []) hfreed)).bind
      (faultless_pure _)
  · exact faultless_pure _

theorem faultless_makeRoom (ha : p.desk.Accounted) : p.makeRoom.Faultless := by
  unfold makeRoom
  split
  · exact (faultless_log _).bind ((faultless_reclaim ha).bind (faultless_pure _))
  · exact faultless_pure p

theorem faultless_allocate (ha : p.desk.Accounted) : p.allocate.Faultless := by
  have hroom := accounted_of_chain (makeRoom_moves p) ha
  refine (faultless_makeRoom ha).bind ?_
  generalize p.makeRoom.value = p at hroom
  split
  · next g hg =>
    obtain ⟨hlt, hfree⟩ := freeGroup?_eq_some hg
    exact (faultless_claim hroom hlt hfree).bind (faultless_pure _)
  · exact (faultless_publish _).bind ((faultless_log _).bind (faultless_pure _))

theorem faultless_synchronize (p : Plane) (meanwhile : Meanwhile) :
    (p.synchronize meanwhile).Faultless :=
  (DeferQueue.faultless_synchronize p.tracker meanwhile).bind (faultless_pure _)

theorem faultless_synchronizeIfBound (p : Plane) (meanwhile : Meanwhile) :
    (p.synchronizeIfBound meanwhile).Faultless := by
  unfold synchronizeIfBound
  split
  · exact faultless_synchronize p meanwhile
  · exact faultless_pure p

/-- Taking back the one group that is on the desk beside the stranded ones. -/
theorem faultless_freeReport (ha : Desk.Accounted ⟨p, p.pool.stranded, [g]⟩) :
    (p.free g >>= fun p => p.report >>= fun _ =>
      pure (⟨p, .ok ()⟩ : Outcome Plane (Except Failure Unit))).Faultless :=
  (faultless_free ha).bind
    ((faultless_report (PoolMove.free.accounted ha)).bind (faultless_pure _))

theorem faultless_release (ha : Desk.Accounted ⟨p, g :: p.pool.stranded, []⟩)
    (meanwhile : Meanwhile) : (p.release g meanwhile).Faultless := by
  unfold release
  split
  · next hp =>
    have hclear : PoolMove ⟨p, [g] ++ p.pool.stranded, []⟩ [] ⟨p, p.pool.stranded, [g] ++ []⟩ :=
      .unwatched hp
    exact faultless_freeReport (hclear.accounted ha)
  · have hwait : PoolMove ⟨p, [g] ++ p.pool.stranded, []⟩ _
        ⟨(p.synchronize meanwhile).value, p.pool.stranded, [g] ++ []⟩ := .wait meanwhile
    exact (faultless_synchronize p meanwhile).bind (faultless_freeReport (hwait.accounted ha))
  · -- the stranded groups go first, and the new one behind them
    have hback : ∀ l : List Nat, (g :: l).Perm (l ++ [g]) :=
      fun l => (List.perm_append_singleton g l).symm
    have hbehind : Desk.Accounted ⟨p, p.pool.stranded ++ [g], []⟩ :=
      (PoolMove.sort (hback _) (.refl _)).accounted ha
    have hrequeued := accounted_of_chain (requeue_moves p p.pool.stranded [g] []) hbehind
    refine (faultless_requeue _ _ hbehind).bind ?_
    generalize (p.requeue p.pool.stranded).value = p at hrequeued
    have hfront : Desk.Accounted ⟨p, g :: p.pool.stranded, []⟩ :=
      (PoolMove.sort (hback _).symm (.refl _)).accounted hrequeued
    have hsent := accounted_of_chain (defer_moves p g p.pool.stranded []) hfront
    have hstranded := stranded_defer p g
    refine (faultless_defer hfront).bind ?_
    generalize (p.defer g).value = out at hsent hstranded ⊢
    obtain ⟨s, answer⟩ := out
    rw [← hstranded] at hsent
    cases answer with
    | ok u => exact (faultless_report hsent).bind (faultless_pure _)
    | error e =>
      have hkept :
          Desk.Accounted ⟨s.setStranded (g :: s.pool.stranded), g :: s.pool.stranded, []⟩ :=
        (PoolMove.restrand (g :: s.pool.stranded)).accounted hsent
      exact (faultless_log _).bind ((faultless_report hkept).bind (faultless_pure _))

/-! ### Drains -/

theorem faultless_drainQueue (p : Plane) (meanwhile : Meanwhile) :
    (p.drainQueue meanwhile).Faultless := by
  unfold drainQueue
  split
  · next q _ => exact (q.faultless_drain p.tracker meanwhile).bind (faultless_pure _)
  · exact faultless_pure _

theorem faultless_settleStranded (ha : p.desk.Accounted) (meanwhile : Meanwhile) :
    (p.settleStranded meanwhile).Faultless := by
  unfold settleStranded
  split
  · exact faultless_pure p
  · have hwait := synchronizeIfBound_moves p p.pool.stranded [] [] meanwhile
    rw [List.append_nil] at hwait
    have hsafe := accounted_of_chain hwait ha
    rw [← stranded_synchronizeIfBound p meanwhile] at hsafe
    refine (faultless_synchronizeIfBound p meanwhile).bind ?_
    generalize (p.synchronizeIfBound meanwhile).value = p at hsafe ⊢
    have hreverse : p.pool.stranded.Perm (p.pool.stranded.reverse ++ []) := by
      rw [List.append_nil]
      exact (List.reverse_perm _).symm
    have hsorted := (PoolMove.sort (.refl []) hreverse).accounted hsafe
    exact (faultless_freeAll _ hsorted).bind (faultless_pure _)

theorem faultless_drain (ha : p.desk.Accounted) (meanwhile : Meanwhile) :
    (p.drain meanwhile).Faultless := by
  have hqueue := accounted_of_chain (drainQueue_moves p p.pool.stranded [] meanwhile) ha
  have hfreed := accounted_of_chain (freeAll_moves _ _ p.pool.stranded []) hqueue
  rw [← stranded_drainQueue p meanwhile, ← stranded_freeAll _ (p.drainQueue meanwhile).value.answer]
    at hfreed
  refine (faultless_drainQueue p meanwhile).bind ((faultless_freeAll _ hqueue).bind ?_)
  refine (faultless_settleStranded hfreed meanwhile).bind ?_
  exact (faultless_report (accounted_of_chain (settleStranded_moves _ meanwhile) hfreed)).bind
    (faultless_pure _)

/-- A fresh start counts no group, so nothing has to be known of the groups before it. -/
theorem faultless_reset (p : Plane) (meanwhile : Meanwhile) : (p.reset meanwhile).Faultless := by
  refine (faultless_synchronizeIfBound p meanwhile).bind ?_
  refine (faultless_drainQueue _ meanwhile).bind ?_
  refine (Arrays.faultless_store (Arrays.admits_slots (Nat.le_of_eq (Nat.zero_add _)) rfl)).bind ?_
  refine Faultless.bind ?_ (faultless_pure _)
  exact (faultless_require (decide_eq_true (Nat.zero_le _)) .groupCount).bind (faultless_publish _)

end Plane

end Dir248
