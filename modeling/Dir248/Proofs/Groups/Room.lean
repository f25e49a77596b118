import Dir248.Proofs.Grace.Bounds
import Dir248.Proofs.Groups.Holdings

/-!
# Room for one more group

When no group is free an allocation makes one pass over the defer queue. The pass frees a
group exactly when something is pending and the oldest item of the queue has passed its
check. That nothing pending can sit beside an empty queue is an invariant of the pool: a
group is stranded behind a full queue only.

* **`freeGroup?_eq_none_iff`** — no group is free when all are in use.
* **`Pool.Tight`** — groups are stranded behind a full queue only; `tight_*` for each operation.
* **`Plane.Blocked`** — the oldest item of the queue has not passed its check.
* **`Blocked.reclaim`**, **`inUse_reclaim_lt`** — a pass that frees nothing, and one that does.
* **`allocate_error_iff`**, **`allocate_error_keeps`** — when there is no group to hand out, and
  what such an allocation leaves as it was.
-/

namespace Dir248

namespace Plane

open Arrays Traced

/-! ### Free groups -/

/-- No group is free when all are in use. -/
theorem freeGroup?_eq_none_iff {t : Arrays} {n : Nat} {away : List Nat} (h : t.Account n away)
    (hc : t.Clean away) : freeGroup? t = none ↔ n = t.groups := by
  rw [h.full_iff, freeGroup?, List.find?_eq_none]
  simp only [List.mem_range, Bool.not_eq_true', Bool.not_eq_false]
  exact forall₂_congr fun g hg => h.occupied_iff hc hg

/-! ### What the parts of an operation leave alone -/

theorem pool_freeAll (p : Plane) (gs : List Nat) :
    (p.freeAll gs).value.pool = { p.pool with inUse := p.pool.inUse - gs.length } := by
  induction gs generalizing p with
  | nil => rfl
  | cons g gs ih =>
    rw [freeAll_cons, value_bind, ih]
    show { p.pool with inUse := p.pool.inUse - 1 - gs.length } = _
    rw [List.length_cons, Nat.sub_sub, Nat.add_comm 1]

theorem tracker_freeAll (p : Plane) (gs : List Nat) :
    (p.freeAll gs).value.tracker = p.tracker := by
  induction gs generalizing p with
  | nil => rfl
  | cons g gs ih =>
    rw [freeAll_cons, value_bind, ih]
    rfl

/-- A group that is sent to the queue: the pool and the tracker afterwards. -/
theorem defer_of_deferring {p : Plane} {q : DeferQueue} (hq : p.pool.reclaimer = .deferring q)
    (g : Nat) : ∃ sent, q.Sent g p.tracker sent ∧
      ((∃ e, sent.answer = .error e) → q.Sound → q.Blocked p.tracker ∧ q.length = q.capacity) ∧
      (p.defer g).value.answer = sent.answer ∧
      (p.defer g).value.state.tracker = sent.tracker ∧
      (p.defer g).value.state.pool =
        ⟨p.pool.inUse - sent.freed.length, .deferring sent.queue, p.pool.stranded⟩ := by
  refine ⟨(q.enqueue g p.tracker).value, q.sent_enqueue g p.tracker, fun h hs => ?_, ?_⟩
  · obtain ⟨e, he⟩ := h
    exact DeferQueue.rejected_enqueue hs he
  · unfold defer
    rw [hq]
    exact ⟨rfl, tracker_freeAll .., pool_freeAll ..⟩

end Plane

/-! ### Stranded groups -/

/-- Groups are stranded behind a full queue only, and the bounds of the queue make sense. -/
structure Pool.Tight (p : Pool) : Prop where
  sound : ∀ {q}, p.reclaimer = .deferring q → q.Sound
  stranded : p.stranded ≠ [] → ∃ q, p.reclaimer = .deferring q ∧ q.length = q.capacity

namespace Pool

theorem tight_new : Tight {} := ⟨nofun, fun h => absurd rfl h⟩

/-- The number of groups in use has no part in it. -/
theorem Tight.congr {p p' : Pool} (h : p.Tight) (hr : p'.reclaimer = p.reclaimer)
    (hs : p'.stranded = p.stranded) : p'.Tight := by
  refine ⟨fun hq => h.sound (hr ▸ hq), fun hne => ?_⟩
  obtain ⟨q, hq, hfull⟩ := h.stranded (hs ▸ hne)
  exact ⟨q, hr.trans hq, hfull⟩

theorem tight_of_nil {p : Pool} (hs : p.stranded = [])
    (hsound : ∀ {q}, p.reclaimer = .deferring q → q.Sound) : p.Tight :=
  ⟨hsound, fun hne => absurd hs hne⟩

theorem Tight.deferring {inUse : Nat} {q : DeferQueue} {stranded : List Nat} (hq : q.Sound)
    (hs : stranded ≠ [] → q.length = q.capacity) : Tight ⟨inUse, .deferring q, stranded⟩ := by
  refine ⟨fun heq => ?_, fun hne => ⟨q, rfl, hs hne⟩⟩
  cases heq
  exact hq

/-- Where something is pending, an item is in the queue. -/
theorem Tight.exists_pending {p : Pool} (h : p.Tight) (hp : p.pending ≠ 0) :
    ∃ q, p.reclaimer = .deferring q ∧ q.Sound ∧ q.pending ≠ [] := by
  by_cases hs : p.stranded = []
  · unfold pending queued at hp
    rw [hs, List.length_nil, Nat.add_zero] at hp
    split at hp
    · next q hq =>
      refine ⟨q, hq, h.sound hq, ?_⟩
      rwa [← List.length_pos_iff, DeferQueue.length_pending, Nat.pos_iff_ne_zero]
    · exact absurd rfl hp
  · obtain ⟨q, hq, hfull⟩ := h.stranded hs
    refine ⟨q, hq, h.sound hq, ?_⟩
    rw [← List.length_pos_iff, DeferQueue.length_pending, hfull]
    exact (h.sound hq).capacity

end Pool

namespace Plane

open Arrays Traced Pool

/-- Groups that go to the queue again all come in, or the queue ends up full and blocked. -/
theorem requeue_spec (gs : List Nat) {p : Plane} {q : DeferQueue}
    (hq : p.pool.reclaimer = .deferring q) (hs : q.Sound) :
    ∃ q', (p.requeue gs).value.pool.reclaimer = .deferring q' ∧ q'.Sound ∧
      ((p.requeue gs).value.pool.stranded = [] ∨
        q'.length = q'.capacity ∧ q'.Blocked (p.requeue gs).value.tracker) := by
  induction gs generalizing p q with
  | nil => exact ⟨q, hq, hs, .inl rfl⟩
  | cons g older ih =>
    obtain ⟨sent, hsent, hrejected, hanswer, htracker, hpool⟩ := defer_of_deferring hq g
    rw [requeue, value_bind]
    generalize (p.defer g).value = out at hanswer htracker hpool ⊢
    obtain ⟨s, answer⟩ := out
    have hs' : s.pool.reclaimer = .deferring sent.queue := congrArg Pool.reclaimer hpool
    cases answer with
    | ok u => exact ih hs' (hs.sent hsent)
    | error e =>
      obtain ⟨hblocked, hfull⟩ := hrejected ⟨e, hanswer.symm⟩ hs
      refine ⟨sent.queue, hs', hs.sent hsent, .inr ⟨(hblocked.rejects hfull hsent).2, ?_⟩⟩
      show sent.queue.Blocked s.tracker
      rw [show s.tracker = sent.tracker from htracker]
      exact (hblocked.sent hsent).2

theorem tight_requeue (gs : List Nat) {p : Plane} {q : DeferQueue}
    (hq : p.pool.reclaimer = .deferring q) (hs : q.Sound) : (p.requeue gs).value.pool.Tight := by
  obtain ⟨q', hq', hs', hend⟩ := requeue_spec gs hq hs
  refine ⟨fun heq => ?_, fun hne => ⟨q', hq', (hend.resolve_left hne).1⟩⟩
  rw [hq'] at heq
  cases heq
  exact hs'

theorem tight_reclaim {p : Plane} (h : p.pool.Tight) : p.reclaim.value.state.pool.Tight := by
  unfold reclaim
  split
  · next q hq =>
    have hsound := (h.sound hq).takeSafe p.tracker q.batch
    exact tight_requeue _ (congrArg Pool.reclaimer (pool_freeAll _ _)) hsound
  · exact h

theorem tight_makeRoom {p : Plane} (h : p.pool.Tight) : p.makeRoom.value.pool.Tight := by
  unfold makeRoom
  split
  · exact tight_reclaim h
  · exact h

theorem tight_allocate {p : Plane} (h : p.pool.Tight) : p.allocate.value.state.pool.Tight := by
  have hroom := tight_makeRoom h
  unfold allocate
  rw [value_bind]
  split
  · exact hroom.congr rfl rfl
  · exact hroom

theorem tight_release {p : Plane} (h : p.pool.Tight) (g : Nat) (meanwhile : Meanwhile) :
    (p.release g meanwhile).value.state.pool.Tight := by
  unfold release
  split
  · exact h.congr rfl rfl
  · exact h.congr rfl rfl
  · next q hq =>
    obtain ⟨q', hq', hs', hend⟩ := requeue_spec p.pool.stranded hq (h.sound hq)
    simp only [value_bind]
    generalize (p.requeue p.pool.stranded).value = p at hq' hend ⊢
    obtain ⟨sent, hsent, hrejected, hanswer, -, hpool⟩ := defer_of_deferring hq' g
    generalize (p.defer g).value = out at hanswer hpool ⊢
    obtain ⟨s, answer⟩ := out
    cases answer with
    | ok u =>
      show s.pool.Tight
      rw [show s.pool = _ from hpool]
      refine .deferring (hs'.sent hsent) fun hne => ?_
      -- a queue that left groups stranded would have turned this one away too
      obtain ⟨hfull, hblocked⟩ := hend.resolve_left hne
      rw [(hblocked.rejects hfull hsent).1] at hanswer
      cases hanswer
    | error e =>
      obtain ⟨hblocked, hfull⟩ := hrejected ⟨e, hanswer.symm⟩ hs'
      show Tight { s.pool with stranded := g :: s.pool.stranded }
      rw [show s.pool = _ from hpool]
      exact .deferring (hs'.sent hsent) fun _ => (hblocked.rejects hfull hsent).2

theorem tight_bind {p : Pool} (h : p.Tight) (mode : ReclaimMode) (groups : Nat) :
    (p.bind mode groups).value.state.Tight := by
  unfold Pool.bind
  dsimp only
  split
  · exact h
  · next hb =>
    have hunbound : p.reclaimer = .unbound := by simpa [isBound] using hb
    have hnil : p.stranded = [] := by
      refine Classical.byContradiction fun hne => ?_
      obtain ⟨q, hq, -⟩ := h.stranded hne
      rw [hunbound] at hq
      cases hq
    cases mode with
    | wait =>
      refine tight_of_nil hnil fun heq => ?_
      cases heq
    | defer capacity threshold batch =>
      dsimp only
      split
      · next q hq =>
        refine tight_of_nil hnil fun heq => ?_
        cases heq
        exact DeferQueue.sound_new hq
      · exact h

theorem pool_synchronizeIfBound (p : Plane) (meanwhile : Meanwhile) :
    (p.synchronizeIfBound meanwhile).value.pool = p.pool := by
  unfold synchronizeIfBound
  split <;> rfl

/-- The queue that a drain leaves has sound bounds. -/
theorem sound_drainQueue {p : Plane} (h : p.pool.Tight) (meanwhile : Meanwhile) {q : DeferQueue}
    (hq : (p.drainQueue meanwhile).value.state.pool.reclaimer = .deferring q) : q.Sound := by
  unfold drainQueue at hq
  split at hq
  · next q' hq' =>
    cases hq
    exact (h.sound hq').drain p.tracker meanwhile
  · exact h.sound hq

theorem pool_settleStranded (p : Plane) (meanwhile : Meanwhile) :
    (p.settleStranded meanwhile).value.pool.stranded = [] ∧
      (p.settleStranded meanwhile).value.pool.reclaimer = p.pool.reclaimer := by
  unfold settleStranded
  split
  · next hnil => exact ⟨List.isEmpty_iff.mp hnil, rfl⟩
  · refine ⟨rfl, ?_⟩
    show ((p.synchronizeIfBound meanwhile).value.freeAll _).value.pool.reclaimer = _
    rw [pool_freeAll, pool_synchronizeIfBound]

theorem tight_drain {p : Plane} (h : p.pool.Tight) (meanwhile : Meanwhile) :
    (p.drain meanwhile).value.state.pool.Tight := by
  obtain ⟨hnil, hreclaimer⟩ := pool_settleStranded
    ((p.drainQueue meanwhile).value.state.freeAll (p.drainQueue meanwhile).value.answer).value
    meanwhile
  rw [pool_freeAll] at hreclaimer
  exact tight_of_nil hnil fun hq => sound_drainQueue h meanwhile (hreclaimer.symm.trans hq)

theorem tight_reset {p : Plane} (h : p.pool.Tight) (meanwhile : Meanwhile) :
    (p.reset meanwhile).value.pool.Tight := by
  have hwaited : (p.synchronizeIfBound meanwhile).value.pool.Tight := by
    rwa [pool_synchronizeIfBound]
  exact tight_of_nil rfl fun hq => sound_drainQueue hwaited meanwhile hq

/-! ### Passes that free nothing, and passes that do -/

/-- The oldest item of the defer queue has not passed its check. -/
def Blocked (p : Plane) : Prop :=
  ∃ q, p.pool.reclaimer = .deferring q ∧ q.Blocked p.tracker

theorem Blocked.defer {p : Plane} (h : p.Blocked) (g : Nat) :
    (p.defer g).value.state.Blocked ∧ (p.defer g).value.state.pool.inUse = p.pool.inUse := by
  obtain ⟨q, hq, hb⟩ := h
  obtain ⟨sent, hsent, -, -, htracker, hpool⟩ := defer_of_deferring hq g
  obtain ⟨hfreed, hb'⟩ := hb.sent hsent
  rw [hpool, hfreed]
  refine ⟨⟨sent.queue, congrArg Pool.reclaimer hpool, ?_⟩, rfl⟩
  rwa [htracker]

/-- While the oldest item may not go, stranded groups free nothing on their way. -/
theorem Blocked.requeue (gs : List Nat) {p : Plane} (h : p.Blocked) :
    (p.requeue gs).value.Blocked ∧ (p.requeue gs).value.pool.inUse = p.pool.inUse := by
  induction gs generalizing p with
  | nil => exact ⟨h, rfl⟩
  | cons g older ih =>
    obtain ⟨hb, hinUse⟩ := h.defer g
    rw [Plane.requeue, value_bind]
    generalize (p.defer g).value = out at hb hinUse ⊢
    obtain ⟨s, answer⟩ := out
    cases answer with
    | ok u =>
      obtain ⟨hb', hinUse'⟩ := ih hb
      exact ⟨hb', hinUse'.trans hinUse⟩
    | error e => exact ⟨hb, hinUse⟩

/-- While the oldest item may not go, a pass frees nothing. -/
theorem Blocked.inUse_reclaim {p : Plane} (h : p.Blocked) :
    p.reclaim.value.state.pool.inUse = p.pool.inUse := by
  obtain ⟨q, hq, hb⟩ := h
  obtain ⟨hfreed, hpending⟩ := hb.takeSafe q.batch
  unfold reclaim
  rw [hq]
  have hb' : (p.setQueue (DeferQueue.takeSafe p.tracker q.batch q).queue).Blocked :=
    ⟨_, rfl, hb.of_pending hpending⟩
  simp only [value_bind, DeferQueue.value_reclaim, hfreed]
  exact (hb'.requeue _).2

/-- Where nothing is pending, a pass frees nothing. -/
theorem inUse_reclaim_of_idle {p : Plane} (h : p.pool.pending = 0) :
    p.reclaim.value.state.pool.inUse = p.pool.inUse := by
  obtain ⟨hqueued, hstranded⟩ := Nat.add_eq_zero_iff.mp h
  unfold reclaim
  split
  · next q hq =>
    have hlength : q.length = 0 := by
      unfold queued at hqueued
      rwa [hq] at hqueued
    have hfreed : (DeferQueue.takeSafe p.tracker q.batch q).freed = [] := by
      have := DeferQueue.length_takeSafe p.tracker q.batch q
      exact List.eq_nil_of_length_eq_zero (by omega)
    simp only [value_bind, DeferQueue.value_reclaim, hfreed]
    show ((p.setQueue _).requeue p.pool.stranded).value.pool.inUse = _
    rw [List.eq_nil_of_length_eq_zero hstranded]
    rfl
  · rfl

theorem inUse_defer_le (p : Plane) (g : Nat) :
    (p.defer g).value.state.pool.inUse ≤ p.pool.inUse := by
  unfold defer
  split
  · show (freeAll _ _).value.pool.inUse ≤ _
    rw [pool_freeAll]
    exact Nat.sub_le ..
  · exact Nat.le_refl _

theorem inUse_requeue_le (gs : List Nat) (p : Plane) :
    (p.requeue gs).value.pool.inUse ≤ p.pool.inUse := by
  induction gs generalizing p with
  | nil => exact Nat.le_refl _
  | cons g older ih =>
    have hle := inUse_defer_le p g
    rw [requeue, value_bind]
    generalize (p.defer g).value = out at hle ⊢
    obtain ⟨s, answer⟩ := out
    cases answer with
    | ok u => exact Nat.le_trans (ih s) hle
    | error e => exact hle

/-- Where something is pending and the oldest item may go, a pass frees a group. -/
theorem inUse_reclaim_lt {p : Plane} (h : p.pool.Tight) (hp : p.pool.pending ≠ 0)
    (hb : ¬ p.Blocked) (hpos : 0 < p.pool.inUse) :
    p.reclaim.value.state.pool.inUse < p.pool.inUse := by
  obtain ⟨q, hq, hs, hne⟩ := h.exists_pending hp
  have hfreed := DeferQueue.freed_ne_nil hne (fun hb' => hb ⟨q, hq, hb'⟩) hs.batch
  have hlength := List.length_pos_iff.mpr hfreed
  unfold reclaim
  rw [hq]
  simp only [value_bind, DeferQueue.value_reclaim]
  refine Nat.lt_of_le_of_lt (inUse_requeue_le _ _) ?_
  rw [pool_freeAll]
  show p.pool.inUse - _ < p.pool.inUse
  omega

/-! ### An allocation -/

theorem clean_of_chain {d d' : Desk} {es : List Event} (h : Chain PoolMove d es d')
    (ha : d.Accounted) (hc : d.Clean) : d'.Clean :=
  h.keeps_under PoolMove.accounted PoolMove.clean ha hc

/-- The pending groups are those kept away between two operations. -/
theorem length_away_desk (p : Plane) : p.desk.away.length = p.pool.pending := by
  show (p.pool.inQueue ++ (p.pool.stranded ++ [])).length = _
  rw [List.append_nil, List.length_append, length_inQueue, pending]

theorem value_makeRoom (p : Plane) : p.makeRoom.value =
    if (freeGroup? p.arrays).isNone && p.pool.isBound then p.reclaim.value.state else p := by
  unfold makeRoom
  split <;> rfl

theorem pending_of_unbound {p : Pool} (h : p.Tight) (hb : p.isBound = false) : p.pending = 0 := by
  refine Classical.byContradiction fun hp => ?_
  obtain ⟨q, hq, -⟩ := h.exists_pending hp
  rw [isBound, hq] at hb
  cases hb

/-- What an allocation that hands out no group answers and leaves. -/
theorem allocate_error {p : Plane} {e : Failure} (h : p.allocate.value.answer = .error e) :
    e = .outOfSpace ∧ freeGroup? p.makeRoom.value.arrays = none ∧
      p.allocate.value.state = p.makeRoom.value := by
  unfold allocate at h ⊢
  rw [value_bind] at h ⊢
  split at h
  · cases h
  · next hnone =>
    cases h
    exact ⟨rfl, hnone, rfl⟩

section Allocate

variable {p : Plane} (ha : p.desk.Accounted) (hc : p.desk.Clean)

include ha hc

theorem freeGroup?_desk : freeGroup? p.arrays = none ↔ p.pool.inUse = p.arrays.groups :=
  freeGroup?_eq_none_iff ha hc

theorem freeGroup?_makeRoom :
    freeGroup? p.makeRoom.value.arrays = none ↔ p.makeRoom.value.pool.inUse = p.arrays.groups := by
  have hmoves := makeRoom_moves p
  have ha' : p.makeRoom.value.desk.Accounted := accounted_of_chain hmoves ha
  have hc' : p.makeRoom.value.desk.Clean := clean_of_chain hmoves ha hc
  have hgroups : p.makeRoom.value.arrays.groups = p.arrays.groups :=
    (sameReads_of_chain hmoves ha.orderly).groups
  rw [freeGroup?_desk ha' hc', hgroups]

/-- A group that is free before the pass is free after it. -/
theorem inUse_of_no_room (h : freeGroup? p.makeRoom.value.arrays = none) :
    p.pool.inUse = p.arrays.groups := by
  refine (freeGroup?_desk ha hc).mp (Classical.byContradiction fun hsome => ?_)
  obtain ⟨g, hg⟩ := Option.ne_none_iff_exists'.mp hsome
  rw [value_makeRoom, hg] at h
  rw [show freeGroup? p.arrays = none from h] at hg
  cases hg

/-- There is no group to hand out when all are in use and none comes back. -/
theorem no_room_iff (ht : p.pool.Tight) : freeGroup? p.makeRoom.value.arrays = none ↔
    p.pool.inUse = p.arrays.groups ∧ (p.pool.pending = 0 ∨ p.Blocked) := by
  constructor
  · intro hnone
    have hfull := inUse_of_no_room ha hc hnone
    refine ⟨hfull, Classical.byContradiction fun hno => ?_⟩
    obtain ⟨hpending, hblocked⟩ := not_or.mp hno
    have hbound : p.pool.isBound = true := by
      rw [← Bool.not_eq_false]
      exact fun hb => hpending (pending_of_unbound ht hb)
    have hpos : 0 < p.pool.inUse := by
      have hle := ha.length_le
      rw [length_away_desk] at hle
      exact Nat.lt_of_lt_of_le (Nat.pos_of_ne_zero hpending) hle
    have hlt := inUse_reclaim_lt ht hpending hblocked hpos
    rw [freeGroup?_makeRoom ha hc, value_makeRoom, (freeGroup?_desk ha hc).mpr hfull,
      hbound] at hnone
    exact Nat.ne_of_lt hlt (hnone.trans hfull.symm)
  · intro h'
    obtain ⟨hfull, hstays⟩ := h'
    rw [freeGroup?_makeRoom ha hc, value_makeRoom]
    split
    · rw [← hfull]
      rcases hstays with hidle | hblocked
      · exact inUse_reclaim_of_idle hidle
      · exact hblocked.inUse_reclaim
    · exact hfull

/-- An allocation fails when all groups are in use and none comes back. -/
theorem allocate_error_iff (ht : p.pool.Tight) : p.allocate.value.answer = .error .outOfSpace ↔
    p.pool.inUse = p.arrays.groups ∧ (p.pool.pending = 0 ∨ p.Blocked) := by
  rw [← no_room_iff ha hc ht]
  refine ⟨fun h => (allocate_error h).2.1, fun h => ?_⟩
  unfold allocate
  rw [value_bind, h]
  rfl

/-- An allocation that hands out no group frees none and leaves as many pending. -/
theorem allocate_error_keeps {e : Failure} (h : p.allocate.value.answer = .error e) :
    p.allocate.value.state.pool.inUse = p.pool.inUse ∧
      p.allocate.value.state.pool.pending = p.pool.pending := by
  obtain ⟨-, hnone, hstate⟩ := allocate_error h
  have hmoves := makeRoom_moves p
  have ha' : p.makeRoom.value.desk.Accounted := accounted_of_chain hmoves ha
  have hlinked : p.makeRoom.value.arrays.linkedBuckets = p.arrays.linkedBuckets :=
    (sameReads_of_chain hmoves ha.orderly).linkedBuckets
  have hinUse : p.makeRoom.value.pool.inUse = p.pool.inUse :=
    ((freeGroup?_makeRoom ha hc).mp hnone).trans (inUse_of_no_room ha hc hnone).symm
  -- the buckets name as many groups as before, so as many are left
  have hcount : p.makeRoom.value.pool.inUse =
      p.makeRoom.value.arrays.linkedBuckets.card + p.makeRoom.value.desk.away.length := ha'.count
  have hcount' : p.pool.inUse = p.arrays.linkedBuckets.card + p.desk.away.length := ha.count
  rw [length_away_desk, hlinked] at hcount
  rw [length_away_desk] at hcount'
  rw [hstate]
  exact ⟨hinUse, by omega⟩

end Allocate

end Plane

end Dir248
