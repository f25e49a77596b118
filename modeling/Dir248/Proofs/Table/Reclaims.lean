import Dir248.Proofs.Table.Figures

/-!
# What a reclaim pass answers

A pass answers with the items it takes from the queue itself. The stranded groups that follow go
through the queue one after the other, and each of them may set off passes of its own, whose groups
are freed and published but not answered. So the answer is a lower bound of what comes back. It is
all that comes back when no group is stranded, and when the pass stops at an item that may not go:
then that item keeps the stranded ones from freeing anything.

* **`Plane.reclaim_of_deferring`** — the pass, and then the stranded groups.
* **`Router.answer_reclaim`** — the answer, the figures and the groups in use.
* **`Router.reclaim_crowded`** — a pass that frees two groups and answers one.
-/

namespace Dir248

namespace Plane

open Traced

variable {p : Plane} {q : DeferQueue}

/-- A pass answers what it takes, and leaves the rest to the stranded groups. -/
theorem reclaim_of_deferring (hq : p.pool.reclaimer = .deferring q) :
    let taken := DeferQueue.takeSafe p.tracker q.batch q
    p.reclaim.value.answer = taken.freed.length ∧
      ∃ p' : Plane,
        p'.pool =
          ⟨p.pool.inUse - taken.freed.length, .deferring taken.queue, p.pool.stranded⟩ ∧
        p'.tracker = p.tracker ∧ p.reclaim.value.state = (p'.requeue p.pool.stranded).value := by
  intro taken
  have hpool := pool_freeAll (p.setQueue taken.queue) taken.freed
  have hstranded : ((p.setQueue taken.queue).freeAll taken.freed).value.pool.stranded =
      p.pool.stranded := by
    rw [hpool]
    rfl
  unfold reclaim
  rw [hq]
  refine ⟨rfl, ((p.setQueue taken.queue).freeAll taken.freed).value, hpool, tracker_freeAll .., ?_⟩
  rw [← hstranded]
  rfl

/-- A pass takes no more groups than are in use. -/
theorem freed_le_inUse (ha : p.desk.Accounted) (hq : p.pool.reclaimer = .deferring q) (max : Nat) :
    (DeferQueue.takeSafe p.tracker max q).freed.length ≤ p.pool.inUse := by
  have hsplit := DeferQueue.length_takeSafe p.tracker max q
  have hle : p.desk.away.length ≤ p.pool.inUse := ha.length_le
  rw [length_away_desk, Pool.pending, Pool.queued, hq] at hle
  dsimp only at hle
  omega

/-- What the answer leaves out is what the stranded groups set free. -/
theorem inUse_reclaim_add_le (ha : p.desk.Accounted) (hq : p.pool.reclaimer = .deferring q) :
    p.reclaim.value.state.pool.inUse + p.reclaim.value.answer ≤ p.pool.inUse := by
  obtain ⟨hanswer, p', hpool, -, hstate⟩ := reclaim_of_deferring hq
  have hle := inUse_requeue_le p.pool.stranded p'
  have hfreed := freed_le_inUse ha hq q.batch
  rw [hpool] at hle
  dsimp only at hle
  rw [hanswer, hstate]
  omega

/-- Nothing is left out when no group is stranded, and when the pass leaves the queue blocked. -/
theorem inUse_reclaim_add (ha : p.desk.Accounted) (hq : p.pool.reclaimer = .deferring q)
    (h : p.pool.stranded = [] ∨ (DeferQueue.takeSafe p.tracker q.batch q).queue.Blocked p.tracker) :
    p.reclaim.value.state.pool.inUse + p.reclaim.value.answer = p.pool.inUse := by
  obtain ⟨hanswer, p', hpool, htracker, hstate⟩ := reclaim_of_deferring hq
  have hkeeps : (p'.requeue p.pool.stranded).value.pool.inUse = p'.pool.inUse := by
    rcases h with hnil | hblocked
    · rw [hnil]
      rfl
    · have hblocked' : p'.Blocked := ⟨_, congrArg Pool.reclaimer hpool, htracker ▸ hblocked⟩
      exact (hblocked'.requeue _).2
  have hfreed := freed_le_inUse ha hq q.batch
  rw [hanswer, hstate, hkeeps, hpool]
  exact Nat.sub_add_cancel hfreed

end Plane

namespace Router

open Dir248.Metric Plane Traced

variable {s : Router} {m : RuleMap}

/-- Every group that a reclaim pass brings back is published, and nothing else is. -/
theorem released_reclaim (h : s.Holds m) {q : DeferQueue}
    (hq : s.table.pool.reclaimer = .deferring q) :
    s.reclaim.value.state.table.stats.groupsInUse +
      total "lpm_groups_released_total" s.reclaim.metrics = s.table.stats.groupsInUse := by
  have hcounted := (published_reclaim h).groups
  have hms : total "lpm_groups_allocated_total" s.reclaim.metrics = 0 := by
    obtain ⟨k, hk, -⟩ := (settles_reclaim (faultless_reclaim h.accounted) hq).figures
    unfold reclaim
    rw [metrics_bind, metrics_pure, List.append_nil, hk, total_append, total_replicate_released]
    rfl
  rw [hms] at hcounted
  exact hcounted.symm

/-- After every history a pass answers what it takes from the queue. Each group that comes back is
published, at least as many as are answered, and no more when none is stranded or the pass stops at
an item that may not go. -/
theorem answer_reclaim (name : String) (config : Config) (hgroups : config.groups ≤ maxGroups)
    (maxReaders : Nat) (turns : List Turn) {q : DeferQueue}
    (hq : ((fresh name config maxReaders).after turns).table.pool.reclaimer = .deferring q) :
    let s := (fresh name config maxReaders).after turns
    let taken := DeferQueue.takeSafe s.tracker q.batch q
    let out := s.reclaim.value
    out.answer = taken.freed.length ∧
      out.state.table.stats.groupsInUse + total "lpm_groups_released_total" s.reclaim.metrics =
        s.table.stats.groupsInUse ∧
      out.answer ≤ total "lpm_groups_released_total" s.reclaim.metrics ∧
      (s.table.pool.stranded = [] ∨ taken.queue.Blocked s.tracker →
        out.state.table.stats.groupsInUse + out.answer = s.table.stats.groupsInUse) := by
  intro s taken out
  have hholds : s.Holds _ := holds_fresh_run name hgroups maxReaders turns
  have hreleased := released_reclaim hholds hq
  have hle : out.state.table.stats.groupsInUse + out.answer ≤ s.table.stats.groupsInUse :=
    inUse_reclaim_add_le hholds.accounted hq
  refine ⟨(reclaim_of_deferring (p := s.plane) hq).1, hreleased, ?_,
    inUse_reclaim_add (p := s.plane) hholds.accounted hq⟩
  exact Nat.le_of_add_le_add_left (hle.trans (Nat.le_of_eq hreleased.symm))

/-- A reader keeps one group in a queue of one place, two more are stranded behind it, and then
the reader goes. -/
def crowding : List Turn :=
  [.write (.bind (.defer 1 1 0)) fun _ => [], .read .register, .read (.online 0),
    .write (.add 0x0A000001 32 1) fun _ => [], .write (.add 0x0A000101 32 2) fun _ => [],
    .write (.add 0x0A000201 32 3) fun _ => [], .write (.delete 0x0A000001 32) fun _ => [],
    .write (.delete 0x0A000101 32) fun _ => [], .write (.delete 0x0A000201 32) fun _ => [],
    .read (.offline 0)]

/-- A table whose pending groups may all come back. -/
def crowded : Router := (fresh "edge" ⟨8, 4⟩ 1).after crowding

theorem crowded_eq : crowded = (fresh "edge" ⟨8, 4⟩ 1).after crowding := rfl

-- the state is computed by the kernel only
attribute [irreducible] crowded

/-- The first stranded group takes the room of the one that was freed, and is freed in its turn
when the second one comes. -/
theorem crowded_spec :
    crowded.table.pool.reclaimer =
        .deferring { capacity := 1, threshold := 1, batch := 16, parked := some ⟨2, 0⟩ } ∧
      crowded.table.stats.groupsInUse = 3 ∧ crowded.reclaim.value.answer = 1 ∧
      crowded.reclaim.value.state.table.stats.groupsInUse = 1 := by
  decide +kernel

/-- The pass answers no more than the two groups that it publishes. -/
theorem answer_reclaim_crowded :
    total "lpm_groups_released_total" crowded.reclaim.metrics = 2 ∧
      crowded.reclaim.value.answer ≤ 2 := by
  obtain ⟨hq, hbefore, -, hafter⟩ := crowded_spec
  rw [crowded_eq] at hq hbefore hafter ⊢
  obtain ⟨-, hreleased, hle, -⟩ := answer_reclaim "edge" ⟨8, 4⟩ (by decide) 1 crowding hq
  rw [hbefore, hafter] at hreleased
  have htwo := Nat.add_left_cancel (hreleased.trans (show 3 = 1 + 2 from rfl))
  exact ⟨htwo, htwo ▸ hle⟩

/-- Of two groups that come back the pass answers one. -/
theorem reclaim_crowded :
    crowded.reclaim.value.answer = 1 ∧ crowded.table.stats.groupsInUse = 3 ∧
      crowded.reclaim.value.state.table.stats.groupsInUse = 1 := by
  obtain ⟨-, hbefore, hanswer, hafter⟩ := crowded_spec
  exact ⟨hanswer, hbefore, hafter⟩

end Router

end Dir248
