import Dir248.Proofs.Grace.Periods
import Dir248.Proofs.Groups.Room

/-!
# Groups that are lent

The pool is a lender: groups are handed out and taken back, and one that is taken back is in use
until no reader can be inside it. So the groups in use are those that are lent and those that are
pending, and what is pending sits in the defer queue or is stranded behind it. Whatever is called,
in whatever order, groups are stranded behind a full queue only. Then something pending means that
an item is in the queue, and if the oldest one may go, a pass brings a group back.

* **`PoolCall`**, **`Lender`**, **`Lender.serve`** — the calls on a pool, and the groups it has
  lent.
* **`Lender.AcceptsAll`** — calls in which only lent groups come back.
* **`PoolMove.balanced`** — what a move does to the number of groups in use.
* **`Lender.Sound`** — what holds between two calls; **`Sound.serve`** is the step and
  **`Sound.foldl_serve`** the run.
* **`Sound.progress`** — a pass over a queue whose oldest item may go.
* **`stranded_behind_full`** — all of this after every list of calls.
-/

namespace Dir248

open Traced

/-! ### Calls -/

/-- A call on a pool, a call on the tracker of the readers, or a store into the arrays. -/
inductive PoolCall where
  | bind (mode : ReclaimMode)
  | allocate
  | release (group : Nat) (meanwhile : Meanwhile)
  | reclaim
  | drain (meanwhile : Meanwhile)
  | reset (meanwhile : Meanwhile)
  | tracker (call : TrackerCall)
  | store (write : Write)

/-- A plane, and the groups that were handed out and have not come back. -/
structure Lender where
  plane : Plane
  lent : List Nat

namespace Lender

/-- A table of `groups` groups, none of them lent. -/
def new (groups : Nat) (tracker : Tracker) : Lender := ⟨.new groups tracker, []⟩

/-- What a call leaves. A group that comes back is no longer lent, whatever the call answers. -/
def serve (l : Lender) : PoolCall → Lender
  | .bind mode =>
    let bound := (l.plane.pool.bind mode l.plane.arrays.groups).value
    { l with plane := { l.plane with pool := bound.state } }
  | .allocate =>
    let out := l.plane.allocate.value
    ⟨out.state, Plane.allotted out.answer ++ l.lent⟩
  | .release group meanwhile =>
    ⟨(l.plane.release group meanwhile).value.state, l.lent.erase group⟩
  | .reclaim => { l with plane := l.plane.reclaim.value.state }
  | .drain meanwhile => { l with plane := (l.plane.drain meanwhile).value.state }
  | .reset meanwhile => ⟨(l.plane.reset meanwhile).value, []⟩
  | .tracker call => { l with plane := { l.plane with tracker := l.plane.tracker.serve call } }
  | .store write => { l with plane := { l.plane with arrays := l.plane.arrays.apply write } }

/-- A group that comes back is lent. -/
def Accepts (l : Lender) : PoolCall → Prop
  | .release group _ => group ∈ l.lent
  | _ => True

/-- Every group that comes back is lent when it does. -/
def AcceptsAll (l : Lender) : List PoolCall → Prop
  | [] => True
  | call :: calls => l.Accepts call ∧ (l.serve call).AcceptsAll calls

instance decidableAccepts (l : Lender) : (call : PoolCall) → Decidable (l.Accepts call)
  | .release group _ => inferInstanceAs (Decidable (group ∈ l.lent))
  | .bind _ | .allocate | .reclaim | .drain _ | .reset _ | .tracker _ | .store _ => .isTrue trivial

instance decidableAcceptsAll : (l : Lender) → (calls : List PoolCall) →
    Decidable (l.AcceptsAll calls)
  | _, [] => .isTrue trivial
  | l, call :: calls =>
    have := decidableAcceptsAll (l.serve call) calls
    inferInstanceAs (Decidable (l.Accepts call ∧ _))

end Lender

/-! ### The groups in use -/

/-- Besides the groups that are kept away from the first level, `n` groups are in use. -/
def Desk.Balanced (n : Nat) (d : Desk) : Prop := d.plane.pool.inUse = d.away.length + n

/-- A group comes into use as a move puts it on the desk, and goes out of use as it leaves it. -/
theorem PoolMove.balanced {d d' : Desk} {es : List Event} (h : PoolMove d es d') {n : Nat}
    (hn : d.Balanced n) : d'.Balanced n := by
  unfold Desk.Balanced at hn ⊢
  obtain ⟨-, huse, hperm⟩ | ⟨g, -, huse, hperm⟩ | ⟨g, -, -, -, huse, hperm⟩ := h.cases
  · have hlength := hperm.length_eq
    omega
  · have hlength := hperm.length_eq
    rw [List.length_cons] at hlength
    omega
  · have hlength := hperm.length_eq
    rw [List.length_cons] at hlength
    omega

theorem balanced_desk {p : Plane} {n : Nat} :
    p.desk.Balanced n ↔ p.pool.inUse = p.pool.pending + n := by
  rw [← Plane.length_away_desk]
  rfl

/-! ### What is pending -/

/-- A scheme is bound where nothing is pending yet. -/
theorem Pool.Tight.bind_keeps {p : Pool} (h : p.Tight) (mode : ReclaimMode) (groups : Nat) :
    (p.bind mode groups).value.state.inUse = p.inUse ∧
      (p.bind mode groups).value.state.pending = p.pending := by
  unfold Pool.bind
  dsimp only
  split
  · exact ⟨rfl, rfl⟩
  · next hb =>
    have hpending := Plane.pending_of_unbound h (Bool.eq_false_iff.mpr hb)
    have hstranded := (Nat.add_eq_zero_iff.mp hpending).2
    cases mode with
    | wait => exact ⟨rfl, (Nat.zero_add _).trans (hstranded.trans hpending.symm)⟩
    | defer capacity threshold batch =>
      dsimp only
      split
      · next q hq =>
        refine ⟨rfl, ?_⟩
        show q.length + p.stranded.length = p.pending
        rw [hstranded, hpending, ← DeferQueue.length_pending, DeferQueue.pending_new hq,
          List.length_nil]
      · exact ⟨rfl, rfl⟩

/-- Where an item is in the queue, something is pending. -/
theorem Pool.pending_pos {p : Pool} {q : DeferQueue} (hq : p.reclaimer = .deferring q)
    (hne : q.pending ≠ []) : 0 < p.pending := by
  have hlength := List.length_pos_iff.mpr hne
  rw [← List.length_map (f := Ticket.item), ← inQueue_of_deferring hq, length_inQueue] at hlength
  exact Nat.add_pos_left hlength _

/-- A queue whose oldest item may go is not blocked. -/
theorem DeferQueue.not_blocked {q : DeferQueue} {t : Tracker} {x : Ticket}
    (hx : q.pending.head? = some x) (hsafe : t.check x.token = true) : ¬ q.Blocked t := by
  rintro ⟨x', hx', hheld⟩
  obtain rfl := Option.some.inj (hx'.symm.trans hx)
  exact Bool.false_ne_true (hheld.symm.trans hsafe)

namespace Plane

/-- Nothing is pending after a fresh start. -/
theorem pending_reset (p : Plane) (meanwhile : Meanwhile) :
    (p.reset meanwhile).value.pool.pending = 0 := by
  have hqueued : ((p.synchronizeIfBound meanwhile).value.drainQueue
      meanwhile).value.state.pool.queued = 0 := by
    unfold drainQueue
    split
    · next q hq =>
      show (q.drain _ meanwhile).value.queue.length = 0
      rw [← DeferQueue.length_pending, DeferQueue.pending_drain, List.length_nil]
    · next hno =>
      unfold Pool.queued
      split
      · next q hq => exact absurd hq (hno q)
      · rfl
  exact hqueued

/-- A pass answers that it freed something, unless nothing is in the queue or it is blocked. -/
theorem answer_reclaim_pos {p : Plane} {q : DeferQueue} (hq : p.pool.reclaimer = .deferring q)
    (hs : q.Sound) (hne : q.pending ≠ []) (hb : ¬ q.Blocked p.tracker) :
    0 < p.reclaim.value.answer := by
  unfold reclaim
  rw [hq]
  exact List.length_pos_iff.mpr (DeferQueue.freed_ne_nil hne hb hs.batch)

end Plane

namespace Lender

open Plane

/-! ### What holds between two calls -/

/-- Groups are stranded behind a full queue only, and the groups in use are those that are pending
and those that are lent. -/
structure Sound (l : Lender) : Prop where
  tight : l.plane.pool.Tight
  inUse : l.plane.pool.inUse = l.plane.pool.pending + l.lent.length

variable {l : Lender}

theorem sound_new (groups : Nat) (tracker : Tracker) : (new groups tracker).Sound :=
  ⟨Pool.tight_new, rfl⟩

theorem Sound.balanced (h : l.Sound) : l.plane.desk.Balanced l.lent.length :=
  balanced_desk.mpr h.inUse

theorem Sound.allocate (h : l.Sound) : (l.serve .allocate).Sound := by
  refine ⟨tight_allocate h.tight, ?_⟩
  have hbalanced := (allocate_moves l.plane).keeps (fun h => h.balanced) h.balanced
  simp only [Desk.Balanced, Desk.away, List.length_append, Pool.length_inQueue] at hbalanced
  show l.plane.allocate.value.state.pool.inUse =
    l.plane.allocate.value.state.pool.pending + (allotted _ ++ l.lent).length
  rw [Pool.pending, List.length_append]
  omega

theorem Sound.release (h : l.Sound) {g : Nat} (hg : g ∈ l.lent) (meanwhile : Meanwhile) :
    (l.serve (.release g meanwhile)).Sound := by
  refine ⟨tight_release h.tight g meanwhile, balanced_desk.mp ?_⟩
  refine (release_moves l.plane g meanwhile).keeps (fun h => h.balanced) ?_
  -- the group is on the desk now, and was lent before
  have hinUse := h.inUse
  have hpos := List.length_pos_of_mem hg
  rw [Pool.pending] at hinUse
  simp only [Desk.Balanced, Desk.away, Lender.serve, List.length_append, List.length_cons,
    List.length_nil, Pool.length_inQueue, List.length_erase_of_mem hg]
  omega

theorem Sound.reclaim (h : l.Sound) : (l.serve .reclaim).Sound :=
  ⟨tight_reclaim h.tight,
    balanced_desk.mp ((reclaim_moves l.plane).keeps (fun h => h.balanced) h.balanced)⟩

/-- Each call leaves what holds between two calls. -/
theorem Sound.serve (h : l.Sound) {call : PoolCall} (hcall : l.Accepts call) :
    (l.serve call).Sound := by
  cases call with
  | bind mode =>
    obtain ⟨hinUse, hpending⟩ := h.tight.bind_keeps mode l.plane.arrays.groups
    refine ⟨tight_bind h.tight mode _, ?_⟩
    show (l.plane.pool.bind mode l.plane.arrays.groups).value.state.inUse =
      (l.plane.pool.bind mode l.plane.arrays.groups).value.state.pending + l.lent.length
    rw [hinUse, hpending, h.inUse]
  | allocate => exact h.allocate
  | release g meanwhile => exact h.release hcall meanwhile
  | reclaim => exact h.reclaim
  | drain meanwhile =>
    exact ⟨tight_drain h.tight meanwhile, balanced_desk.mp
      ((drain_moves l.plane meanwhile).keeps (fun h => h.balanced) h.balanced)⟩
  | reset meanwhile =>
    refine ⟨tight_reset h.tight meanwhile, ?_⟩
    show (l.plane.reset meanwhile).value.pool.inUse = _
    exact (pending_reset l.plane meanwhile).symm
  | tracker call => exact ⟨h.tight, h.inUse⟩
  | store write => exact ⟨h.tight, h.inUse⟩

theorem Sound.foldl_serve (h : l.Sound) {calls : List PoolCall} (hcalls : l.AcceptsAll calls) :
    (calls.foldl Lender.serve l).Sound := by
  induction calls generalizing l with
  | nil => exact h
  | cons call calls ih => exact ih (h.serve hcalls.1) hcalls.2

/-! ### Passes over the queue -/

/-- A pass brings a group back when the oldest item of the queue may go. -/
theorem Sound.progress (h : l.Sound) {q : DeferQueue} {x : Ticket}
    (hq : l.plane.pool.reclaimer = .deferring q) (hx : q.pending.head? = some x)
    (hsafe : l.plane.tracker.check x.token = true) :
    0 < l.plane.reclaim.value.answer ∧
      l.plane.reclaim.value.state.pool.inUse < l.plane.pool.inUse ∧
      l.plane.reclaim.value.state.pool.pending < l.plane.pool.pending := by
  have hne : q.pending ≠ [] := List.ne_nil_of_mem (List.mem_of_mem_head? hx)
  have hfree := DeferQueue.not_blocked hx hsafe
  have hblocked : ¬ l.plane.Blocked := by
    rintro ⟨q', hq', hb⟩
    obtain rfl := Reclaimer.deferring.inj (hq'.symm.trans hq)
    exact hfree hb
  have hpending := Pool.pending_pos hq hne
  have hbefore := h.inUse
  have hless := inUse_reclaim_lt h.tight (Nat.ne_of_gt hpending) hblocked (by omega)
  -- as many groups are lent as before, so those that are back were pending
  have hafter : l.plane.reclaim.value.state.pool.inUse =
      l.plane.reclaim.value.state.pool.pending + l.lent.length := h.reclaim.inUse
  exact ⟨answer_reclaim_pos hq (h.tight.sound hq) hne hfree, hless, by omega⟩

/-! ### All calls -/

/-- After any calls in which only lent groups come back, groups are stranded behind a full queue
only, and where something is pending an item is in the queue. If the oldest item may go, a pass
answers that it freed something, and fewer groups are in use and fewer pending afterwards. -/
theorem stranded_behind_full (groups : Nat) (tracker : Tracker) {calls : List PoolCall}
    (hcalls : (new groups tracker).AcceptsAll calls) :
    let p := (calls.foldl serve (new groups tracker)).plane
    (p.pool.stranded ≠ [] → ∃ q, p.pool.reclaimer = .deferring q ∧ q.length = q.capacity) ∧
    (0 < p.pool.pending → ∃ q, p.pool.reclaimer = .deferring q ∧ q.pending ≠ []) ∧
    ∀ {q x}, p.pool.reclaimer = .deferring q → q.pending.head? = some x →
      p.tracker.check x.token = true →
      0 < p.reclaim.value.answer ∧ p.reclaim.value.state.pool.inUse < p.pool.inUse ∧
        p.reclaim.value.state.pool.pending < p.pool.pending := by
  intro p
  have hsound := (sound_new groups tracker).foldl_serve hcalls
  refine ⟨hsound.tight.stranded, fun hpending => ?_, hsound.progress⟩
  obtain ⟨q, hq, -, hne⟩ := hsound.tight.exists_pending (Nat.ne_of_gt hpending)
  exact ⟨q, hq, hne⟩

/-- While a reader is inside, three groups come back to a queue of one place. Then the reader
goes. -/
def crowding : List PoolCall :=
  [.bind (.defer 1 1 0), .tracker (.reader .register), .tracker (.reader (.online 0)), .allocate,
    .allocate, .allocate, .release 0 fun _ => [], .release 1 fun _ => [], .release 2 fun _ => [],
    .tracker (.reader (.offline 0))]

/-- A pool whose groups may all come back. -/
def crowded : Lender := crowding.foldl serve (new 3 (.new 1))

theorem crowded_eq : crowded = crowding.foldl serve (new 3 (.new 1)) := rfl

-- the state is computed by the kernel only
attribute [irreducible] crowded

/-- One group is in the queue, and two are behind it. -/
theorem crowded_spec :
    (new 3 (.new 1)).AcceptsAll crowding ∧
      crowded.plane.pool = ⟨3, .deferring
        { capacity := 1, threshold := 1, batch := 16, parked := some ⟨2, 0⟩ }, [2, 1]⟩ ∧
      crowded.plane.tracker.check 2 = true := by
  decide +kernel

/-- The queue is full, and a pass brings at least one group back. -/
theorem stranded_behind_full_crowded :
    (∃ q, crowded.plane.pool.reclaimer = .deferring q ∧ q.length = q.capacity) ∧
      (∃ q, crowded.plane.pool.reclaimer = .deferring q ∧ q.pending ≠ []) ∧
      0 < crowded.plane.reclaim.value.answer ∧
      crowded.plane.reclaim.value.state.pool.inUse < 3 ∧
      crowded.plane.reclaim.value.state.pool.pending < 3 := by
  obtain ⟨hcalls, hpool, hsafe⟩ := crowded_spec
  have hall := stranded_behind_full 3 (.new 1) hcalls
  rw [← crowded_eq] at hall
  obtain ⟨hstranded, hqueued, hprogress⟩ := hall
  obtain ⟨hanswer, hinUse, hpending⟩ := hprogress (congrArg Pool.reclaimer hpool) rfl hsafe
  have hthree : crowded.plane.pool.pending = 3 := congrArg Pool.pending hpool
  rw [show crowded.plane.pool.inUse = 3 from congrArg Pool.inUse hpool] at hinUse
  rw [hthree] at hqueued hpending
  refine ⟨hstranded ?_, hqueued (Nat.zero_lt_succ 2), hanswer, hinUse, hpending⟩
  rw [hpool]
  exact List.cons_ne_nil 2 [1]

end Lender

end Dir248
