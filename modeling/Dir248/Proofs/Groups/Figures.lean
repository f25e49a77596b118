import Dir248.Proofs.Groups.Faultless
import Dir248.Proofs.Groups.Room

/-!
# The figures of the groups

Every group that is handed out and every group that is freed is counted by a figure of its own,
wherever in an operation it happens: in a pass, while an item is sent to the queue, in a drain.
After the last change an operation makes to the number of groups in use it shows how many are
free. Only a fresh start forgets groups that no figure tells of.

* **`Metric.total`**, **`Metric.latest?`** — what a counter has come to and what a gauge shows.
* **`Tally.Published`** — the figures account for the way from one tally to another, but for what
  was wiped; **`Published.trans`** is how they add up.
* **`Plane.Returns`** — a computation frees groups and publishes each of them.
* **`Plane.publishes_allocate`** to **`Plane.metrics_reset`** — one law for each operation.
-/

namespace Dir248

/-! ### Counters and gauges -/

namespace Metric

/-- What the updates published under a name come to. -/
def total (name : String) (ms : List Metric) : Nat :=
  ((ms.filter fun m => m.name = name).map value).sum

/-- What was published under a name last. -/
def latest? (name : String) (ms : List Metric) : Option Nat :=
  ((ms.filter fun m => m.name = name).map value).getLast?

@[simp] theorem total_nil (name : String) : total name [] = 0 := rfl

@[simp] theorem latest?_nil (name : String) : latest? name [] = none := rfl

theorem total_cons (name : String) (m : Metric) (ms : List Metric) :
    total name (m :: ms) = (if m.name = name then m.value else 0) + total name ms := by
  unfold total
  rw [List.filter_cons]
  by_cases h : m.name = name <;> simp [h]

@[simp] theorem total_append (name : String) (ms ms' : List Metric) :
    total name (ms ++ ms') = total name ms + total name ms' := by
  simp only [total, List.filter_append, List.map_append, List.sum_append]

@[simp] theorem latest?_append (name : String) (ms ms' : List Metric) :
    latest? name (ms ++ ms') = (latest? name ms').or (latest? name ms) := by
  simp only [latest?, List.filter_append, List.map_append, List.getLast?_append]

/-- The groups that were freed, one figure each. -/
theorem total_replicate_released (name : String) (k : Nat) :
    total name (List.replicate k .groupReleased) =
      if "lpm_groups_released_total" = name then k else 0 := by
  induction k with
  | zero => simp
  | succ k ih =>
    rw [List.replicate_succ, total_cons, ih]
    show (if "lpm_groups_released_total" = name then 1 else 0) + _ = _
    split
    · exact Nat.add_comm 1 k
    · rfl

end Metric

/-- How many groups are in use and how many rules are stored. -/
structure Tally where
  groups : Nat := 0
  rules : Nat := 0
deriving Repr, DecidableEq

namespace Tally

instance : Add Tally := ⟨fun a b => ⟨a.groups + b.groups, a.rules + b.rules⟩⟩

theorem groups_add (a b : Tally) : (a + b).groups = a.groups + b.groups := rfl

theorem rules_add (a b : Tally) : (a + b).rules = a.rules + b.rules := rfl

open Dir248.Metric

/-- What the figures tell of the way from one tally to another: the counters account for all that
came and all that went but for what was wiped, and the gauge shows how many of all groups are
free, unless their number has not changed. -/
structure Published (all : Nat) (before after wiped : Tally) (ms : List Metric) : Prop where
  groups : before.groups + total "lpm_groups_allocated_total" ms =
    after.groups + wiped.groups + total "lpm_groups_released_total" ms
  rules : before.rules + total "lpm_rules_added_total" ms =
    after.rules + wiped.rules + total "lpm_rules_deleted_total" ms
  shown : latest? "lpm_free_groups" ms = some (all - after.groups) ∨
    latest? "lpm_free_groups" ms = none ∧ after.groups = before.groups

variable {all : Nat} {a b c wiped wiped' : Tally} {ms ms' : List Metric}

/-- Where nothing changes nothing has to be published. -/
theorem Published.refl (all : Nat) (a : Tally) : Published all a a {} [] :=
  ⟨rfl, rfl, .inr ⟨rfl, rfl⟩⟩

/-- A rule comes. -/
theorem published_ruleAdded (all groups n : Nat) :
    Published all ⟨groups, n⟩ ⟨groups, n + 1⟩ {} [.ruleAdded] :=
  ⟨rfl, rfl, .inr ⟨rfl, rfl⟩⟩

/-- A rule goes. -/
theorem published_ruleDeleted (all groups n : Nat) :
    Published all ⟨groups, n + 1⟩ ⟨groups, n⟩ {} [.ruleDeleted] :=
  ⟨rfl, rfl, .inr ⟨rfl, rfl⟩⟩

/-- All that there was is wiped. -/
theorem published_wiped (all : Nat) (a : Tally) : Published all a {} a [.freeGroups all] :=
  ⟨(Nat.zero_add _).symm, (Nat.zero_add _).symm, .inl rfl⟩

theorem Published.trans (h : Published all a b wiped ms) (h' : Published all b c wiped' ms') :
    Published all a c (wiped + wiped') (ms ++ ms') := by
  have hgroups := h.groups
  have hgroups' := h'.groups
  have hrules := h.rules
  have hrules' := h'.rules
  refine ⟨?_, ?_, ?_⟩
  · rw [groups_add, total_append, total_append]
    omega
  · rw [rules_add, total_append, total_append]
    omega
  · rw [latest?_append]
    rcases h'.shown with hlast | ⟨hnone, hsame⟩
    · rw [hlast]
      exact .inl rfl
    · rw [hnone, hsame]
      exact h.shown

/-- Where nothing is wiped. -/
theorem Published.append (h : Published all a b {} ms) (h' : Published all b c {} ms') :
    Published all a c {} (ms ++ ms') :=
  h.trans h'

end Tally

/-! ### Groups that are freed -/

namespace Arrays

@[simp] theorem metrics_store (t : Arrays) (w : Write) : (t.store w).metrics = [] := by
  unfold store
  rw [Traced.metrics_bind, Traced.metrics_require]
  rfl

end Arrays

@[simp] theorem Tracker.metrics_synchronize (t : Tracker) (meanwhile : Meanwhile) :
    (t.synchronize meanwhile).metrics = [] := by
  unfold Traced.metrics synchronize
  rw [List.filterMap_append, List.append_eq_nil_iff]
  refine ⟨List.filterMap_eq_nil_iff.mpr fun e he => ?_, rfl⟩
  obtain ⟨step, -, rfl⟩ := List.mem_map.mp he
  rfl

namespace DeferQueue

@[simp] theorem metrics_reclaim (q : DeferQueue) (max : Nat) (t : Tracker) :
    (q.reclaim max t).metrics = [] := by
  simp [reclaim]

@[simp] theorem metrics_push (q : DeferQueue) (item : Nat) (t : Tracker) (freed : List Nat) :
    (q.push item t freed).metrics = [] := by
  unfold push
  dsimp only
  split <;> simp

/-- The queue itself publishes nothing. -/
@[simp] theorem metrics_enqueue (q : DeferQueue) (item : Nat) (t : Tracker) :
    (q.enqueue item t).metrics = [] := by
  rw [enqueue_eq, Traced.metrics_bind, List.append_eq_nil_iff]
  refine ⟨?_, ?_⟩
  · unfold firstPass
    split <;> simp
  · unfold afterPass
    split
    · simp
    · rw [Traced.metrics_bind, metrics_reclaim, List.nil_append]
      split <;> simp

@[simp] theorem metrics_drain (q : DeferQueue) (t : Tracker) (meanwhile : Meanwhile) :
    (q.drain t meanwhile).metrics = [] := by
  unfold drain
  split <;> simp

end DeferQueue

namespace Plane

open Traced Dir248.Metric

/-- On the way from one plane to another groups were freed, a figure for each, and nothing else
was published. -/
structure Returned (p p' : Plane) (ms : List Metric) : Prop where
  all : p'.arrays.groups = p.arrays.groups
  figures : ∃ k, ms = List.replicate k .groupReleased ∧ p.pool.inUse = p'.pool.inUse + k

/-- A computation frees groups on its way to the plane that its value shows. -/
def Returns {α : Type} (p : Plane) (x : Traced α) (f : α → Plane) : Prop :=
  p.Returned (f x.value) x.metrics

section Returns

variable {α β : Type} {p p' : Plane} {x : Traced α} {k : α → Traced β} {f : α → Plane}
  {h : β → Plane}

/-- A computation that publishes nothing and leaves the groups alone. -/
theorem returns_silent (hms : x.metrics = []) (hall : (f x.value).arrays.groups = p.arrays.groups)
    (huse : (f x.value).pool.inUse = p.pool.inUse) : p.Returns x f :=
  ⟨hall, 0, hms, huse.symm⟩

theorem Returns.bind (hx : p.Returns x f) (hk : (f x.value).Returns (k x.value) h) :
    p.Returns (x >>= k) h := by
  obtain ⟨m, hm, huse⟩ := hx.figures
  obtain ⟨n, hn, huse'⟩ := hk.figures
  refine ⟨hk.all.trans hx.all, m + n, ?_, ?_⟩
  · rw [metrics_bind, hm, hn, List.replicate_append_replicate]
  · rw [value_bind]
    omega

end Returns

variable {p : Plane}

/-- A group that is freed is one of those in use, or the free has a fault. -/
theorem returns_free {g : Nat} (h : (p.free g).Faultless) : p.Returns (p.free g) id := by
  have hrequired := h.of_bind.2.of_bind.1
  have hpos : 0 < p.pool.inUse := by
    refine Classical.byContradiction fun hno => ?_
    rw [decide_eq_false hno] at hrequired
    cases hrequired
  refine ⟨Arrays.groups_apply .., 1, ?_, ?_⟩
  · simp [free]
  · show p.pool.inUse = p.pool.inUse - 1 + 1
    omega

theorem returns_freeAll (gs : List Nat) (h : (p.freeAll gs).Faultless) :
    p.Returns (p.freeAll gs) id := by
  induction gs generalizing p with
  | nil => exact returns_silent rfl rfl rfl
  | cons g gs ih =>
    rw [freeAll_cons] at h ⊢
    exact (returns_free h.of_bind.1).bind (ih h.of_bind.2)

theorem returns_defer {g : Nat} (h : (p.defer g).Faultless) :
    p.Returns (p.defer g) Outcome.state := by
  unfold defer at h ⊢
  split at h
  · next q hq =>
    have hsent : p.Returns (q.enqueue g p.tracker) fun sent =>
        { p.setQueue sent.queue with tracker := sent.tracker } :=
      returns_silent (q.metrics_enqueue g p.tracker) rfl rfl
    exact hsent.bind ((returns_freeAll _ h.of_bind.2.of_bind.1).bind (returns_silent rfl rfl rfl))
  · exact returns_silent rfl rfl rfl

theorem returns_requeue (gs : List Nat) (h : (p.requeue gs).Faultless) :
    p.Returns (p.requeue gs) id := by
  induction gs generalizing p with
  | nil => exact returns_silent rfl rfl rfl
  | cons g older ih =>
    rw [requeue] at h ⊢
    obtain ⟨hsent, hrest⟩ := h.of_bind
    refine (returns_defer hsent).bind ?_
    generalize (p.defer g).value = out at hrest ⊢
    obtain ⟨s, answer⟩ := out
    cases answer with
    | ok u => exact ih hrest
    | error e => exact returns_silent rfl rfl rfl

/-! ### Operations -/

/-- Groups were freed, a figure for each, and then the number of free groups was shown. -/
structure Settled (p p' : Plane) (ms : List Metric) : Prop where
  all : p'.arrays.groups = p.arrays.groups
  figures : ∃ k, ms = List.replicate k .groupReleased ++
    [.freeGroups (p.arrays.groups - p'.pool.inUse)] ∧ p.pool.inUse = p'.pool.inUse + k

/-- A computation frees groups and then shows how many are free. -/
def Settles {α : Type} (p : Plane) (x : Traced α) (f : α → Plane) : Prop :=
  p.Settled (f x.value) x.metrics

/-- A computation publishes what it does to the groups. -/
structure Publishes {α : Type} (p : Plane) (x : Traced α) (f : α → Plane) : Prop where
  all : (f x.value).arrays.groups = p.arrays.groups
  figures : ∀ rules, Tally.Published p.arrays.groups ⟨p.pool.inUse, rules⟩
    ⟨(f x.value).pool.inUse, rules⟩ {} x.metrics

section Publishes

variable {α β : Type} {x : Traced α} {k : α → Traced β} {f : α → Plane} {h : β → Plane}

theorem settles_report {b : β} (hb : h b = p) :
    p.Settles (p.report >>= fun _ => pure b) h := by
  refine ⟨congrArg (·.arrays.groups) hb, 0, ?_, congrArg (·.pool.inUse) hb.symm⟩
  rw [value_bind, value_pure, hb]
  simp [report]

theorem Returns.settles (hx : p.Returns x f) (hk : (f x.value).Settles (k x.value) h) :
    p.Settles (x >>= k) h := by
  obtain ⟨m, hm, huse⟩ := hx.figures
  obtain ⟨n, hn, huse'⟩ := hk.figures
  refine ⟨hk.all.trans hx.all, m + n, ?_, ?_⟩
  · rw [metrics_bind, hm, hn, ← List.append_assoc, List.replicate_append_replicate, hx.all]
    rfl
  · rw [value_bind]
    omega

theorem Settles.publishes (hx : p.Settles x f) : p.Publishes x f := by
  obtain ⟨hall, k, hms, huse⟩ := hx
  refine ⟨hall, fun rules => ?_⟩
  rw [hms]
  refine ⟨?_, ?_, .inl ?_⟩
  · simpa [total_replicate_released, total_cons, Metric.name] using huse
  · simp [total_replicate_released, total_cons, Metric.name]
  · rw [latest?_append]
    rfl

theorem publishes_silent (hms : x.metrics = []) (hall : (f x.value).arrays.groups = p.arrays.groups)
    (huse : (f x.value).pool.inUse = p.pool.inUse) : p.Publishes x f := by
  refine ⟨hall, fun rules => ?_⟩
  rw [hms, huse]
  exact .refl ..

theorem Publishes.bind (hx : p.Publishes x f)
    (hk : (f x.value).Publishes (k x.value) h) : p.Publishes (x >>= k) h := by
  refine ⟨hk.all.trans hx.all, fun rules => ?_⟩
  have hrest := hk.figures rules
  rw [hx.all] at hrest
  rw [metrics_bind]
  exact (hx.figures rules).trans hrest

end Publishes

/-- One pass, and the stranded groups that take the room it made. -/
theorem settles_reclaim (h : p.reclaim.Faultless) {q : DeferQueue}
    (hq : p.pool.reclaimer = .deferring q) : p.Settles p.reclaim Outcome.state := by
  unfold reclaim at h ⊢
  rw [hq] at h ⊢
  have htaken : p.Returns (q.reclaim q.batch p.tracker) fun taken => p.setQueue taken.queue :=
    returns_silent (q.metrics_reclaim _ _) rfl rfl
  obtain ⟨hfreed, hrest⟩ := h.of_bind.2.of_bind
  exact htaken.settles ((returns_freeAll _ hfreed).settles
    ((returns_requeue _ hrest.of_bind.1).settles (settles_report rfl)))

theorem publishes_reclaim (h : p.reclaim.Faultless) : p.Publishes p.reclaim Outcome.state := by
  cases hq : p.pool.reclaimer with
  | deferring q => exact (settles_reclaim h hq).publishes
  | unbound | waiting =>
    unfold reclaim
    rw [hq]
    exact publishes_silent rfl rfl rfl

theorem publishes_makeRoom (h : p.makeRoom.Faultless) : p.Publishes p.makeRoom id := by
  unfold makeRoom at h ⊢
  split at h
  · next hnone =>
    have hlog : p.Publishes (log .poolExhausted) fun _ => p := publishes_silent rfl rfl rfl
    have hreclaim := publishes_reclaim h.of_bind.2.of_bind.1
    rw [if_pos hnone]
    refine hlog.bind (hreclaim.bind ?_)
    exact publishes_silent rfl rfl rfl
  · next hsome =>
    rw [if_neg hsome]
    exact publishes_silent rfl rfl rfl

theorem publishes_claim (p : Plane) (g : Nat) : p.Publishes (p.claim g) id := by
  refine ⟨Arrays.groups_apply .., fun rules => ?_⟩
  have hms : (p.claim g).metrics =
      [.groupAllocated, .freeGroups (p.arrays.groups - (p.pool.inUse + 1))] := by
    simp [claim, report]
  rw [hms]
  exact ⟨rfl, rfl, .inl rfl⟩

theorem publishes_allocate (h : p.allocate.Faultless) :
    p.Publishes p.allocate Outcome.state := by
  refine (publishes_makeRoom h.of_bind.1).bind ?_
  generalize p.makeRoom.value = p
  split
  · refine (publishes_claim p _).bind ?_
    exact publishes_silent rfl rfl rfl
  · -- a failed allocation is counted under a name of its own
    refine ⟨rfl, fun rules => ?_⟩
    rw [metrics_bind, metrics_bind, metrics_publish, metrics_log]
    exact ⟨rfl, rfl, .inr ⟨rfl, rfl⟩⟩

theorem returns_synchronize (p : Plane) (meanwhile : Meanwhile) :
    p.Returns (p.synchronize meanwhile) id :=
  returns_silent (by simp [synchronize]) rfl rfl

theorem settles_release {g : Nat} {meanwhile : Meanwhile}
    (h : (p.release g meanwhile).Faultless) :
    p.Settles (p.release g meanwhile) Outcome.state := by
  unfold release at h ⊢
  split at h
  · exact (returns_free h.of_bind.1).settles (settles_report rfl)
  · exact (returns_synchronize p meanwhile).settles
      ((returns_free h.of_bind.2.of_bind.1).settles (settles_report rfl))
  · obtain ⟨hrequeue, hrest⟩ := h.of_bind
    refine (returns_requeue _ hrequeue).settles ?_
    obtain ⟨hsent, hrest⟩ := hrest.of_bind
    refine (returns_defer hsent).settles ?_
    generalize ((p.requeue p.pool.stranded).value.defer g).value = out
    obtain ⟨s, answer⟩ := out
    cases answer with
    | ok u => exact settles_report rfl
    | error e =>
      have hlog : s.Returns (log (.deferFailed g)) fun _ => s.setStranded (g :: s.pool.stranded) :=
        returns_silent rfl rfl rfl
      exact hlog.settles (settles_report rfl)

/-! ### Drains -/

@[simp] theorem metrics_synchronizeIfBound (p : Plane) (meanwhile : Meanwhile) :
    (p.synchronizeIfBound meanwhile).metrics = [] := by
  unfold synchronizeIfBound
  split <;> simp [synchronize]

@[simp] theorem metrics_drainQueue (p : Plane) (meanwhile : Meanwhile) :
    (p.drainQueue meanwhile).metrics = [] := by
  unfold drainQueue
  split <;> simp

theorem returns_synchronizeIfBound (p : Plane) (meanwhile : Meanwhile) :
    p.Returns (p.synchronizeIfBound meanwhile) id := by
  refine returns_silent (metrics_synchronizeIfBound p meanwhile) ?_ ?_ <;>
  · unfold synchronizeIfBound
    split <;> rfl

theorem returns_drainQueue (p : Plane) (meanwhile : Meanwhile) :
    p.Returns (p.drainQueue meanwhile) Outcome.state := by
  refine returns_silent (metrics_drainQueue p meanwhile) ?_ ?_ <;>
  · unfold drainQueue
    split <;> rfl

theorem returns_settleStranded {meanwhile : Meanwhile}
    (h : (p.settleStranded meanwhile).Faultless) : p.Returns (p.settleStranded meanwhile) id := by
  unfold settleStranded at h ⊢
  split at h
  · next hnil =>
    rw [if_pos hnil]
    exact returns_silent rfl rfl rfl
  · next hsome =>
    rw [if_neg hsome]
    refine (returns_synchronizeIfBound p meanwhile).bind ?_
    refine (returns_freeAll _ h.of_bind.2.of_bind.1).bind ?_
    exact returns_silent rfl rfl rfl

theorem settles_drain {meanwhile : Meanwhile} (h : (p.drain meanwhile).Faultless) :
    p.Settles (p.drain meanwhile) Outcome.state := by
  obtain ⟨hfreed, hrest⟩ := h.of_bind.2.of_bind
  refine (returns_drainQueue p meanwhile).settles ((returns_freeAll _ hfreed).settles ?_)
  exact (returns_settleStranded hrest.of_bind.1).settles (settles_report rfl)

/-- A fresh start shows that all groups are free and tells of none that came back. -/
theorem metrics_reset (p : Plane) (meanwhile : Meanwhile) :
    (p.reset meanwhile).metrics = [.freeGroups p.arrays.groups] := by
  have hwaited := (returns_synchronizeIfBound p meanwhile).all
  have hdrained := (returns_drainQueue (p.synchronizeIfBound meanwhile).value meanwhile).all
  have hall : ((p.synchronizeIfBound meanwhile).value.drainQueue
      meanwhile).value.state.arrays.groups = p.arrays.groups := hdrained.trans hwaited
  simpa [reset, report, Arrays.clearSlots] using hall

end Plane

end Dir248
