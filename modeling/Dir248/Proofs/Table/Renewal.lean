import Dir248.Proofs.Table.Figures
import Dir248.Proofs.Table.Passing
import Dir248.Proofs.Table.Standing

/-!
# Emptying a table is a fresh start

Rules, arrays, count, queue and stranded groups all have to be forgotten, or an operation long
after tells the difference. What a history cannot change is the sizing and, once a scheme is
bound, the scheme. So a table that is emptied is a table that has just been made and bound in the
same mode, to readers that stand where they stand now.

* **`Pool.scheme`** — the scheme of a pool without what waits in it; every operation keeps it.
* **`ReclaimMode.recorded`** — the mode a table is bound in, according to its answers.
* **`Arrays.Trimmed`** — nothing is ever stored behind the last group.
* **`Router.pool_deleteAll`**, **`Router.arrays_deleteAll`** — what is left of the pool and of the
  arrays.
* **`Router.deleteAll_renews`** — an emptied table is a new one.
-/

namespace Dir248

open Traced

/-! ### Schemes -/

/-- The queue with its bounds and without its items. -/
def DeferQueue.emptied (q : DeferQueue) : DeferQueue := { q with parked := none, waiting := [] }

/-- The reclaimer without the groups that wait in it. -/
def Reclaimer.emptied : Reclaimer → Reclaimer
  | .deferring q => .deferring q.emptied
  | r => r

/-- The scheme that a mode asks for in a table of `groups` groups, if its bounds are sound. -/
def ReclaimMode.scheme (groups : Nat) : ReclaimMode → Except Failure Reclaimer
  | .wait => .ok .waiting
  | .defer capacity threshold batch =>
    (DeferQueue.new (if capacity = 0 then groups else capacity) threshold batch).map .deferring

namespace DeferQueue

theorem emptied_congr {q q' : DeferQueue} (h : q'.capacity = q.capacity ∧
    q'.threshold = q.threshold ∧ q'.batch = q.batch) : q'.emptied = q.emptied := by
  obtain ⟨hcapacity, hthreshold, hbatch⟩ := h
  rw [emptied, emptied, hcapacity, hthreshold, hbatch]

theorem emptied_of_pending {q : DeferQueue} (h : q.pending = []) : q.emptied = q := by
  obtain ⟨hparked, hwaiting⟩ := List.append_eq_nil_iff.mp h
  rw [emptied, ← hwaiting, ← Option.toList_eq_nil_iff.mp hparked]

theorem queue_drain (q : DeferQueue) (t : Tracker) (meanwhile : Meanwhile) :
    (q.drain t meanwhile).value.queue = q.emptied := by
  have hpending := q.pending_drain t meanwhile
  unfold drain at hpending ⊢
  split
  · next h =>
    rw [if_pos h] at hpending
    exact (emptied_of_pending hpending).symm
  · rfl

end DeferQueue

theorem Reclaimer.emptied_emptied (r : Reclaimer) : r.emptied.emptied = r.emptied := by
  cases r <;> rfl

/-- A scheme that was just bound has nothing waiting. -/
theorem ReclaimMode.emptied_scheme {groups : Nat} {mode : ReclaimMode} {r : Reclaimer}
    (h : mode.scheme groups = .ok r) : r.emptied = r := by
  cases mode with
  | wait =>
    cases h
    rfl
  | defer capacity threshold batch =>
    cases hnew : DeferQueue.new (if capacity = 0 then groups else capacity) threshold batch with
    | error e =>
      rw [scheme, hnew] at h
      cases h
    | ok q =>
      rw [scheme, hnew] at h
      cases h
      exact congrArg Reclaimer.deferring
        (DeferQueue.emptied_of_pending (DeferQueue.pending_new hnew))

namespace Pool

/-- How groups come back, whatever waits. -/
def scheme (p : Pool) : Reclaimer := p.reclaimer.emptied

/-- To bind a pool gives it the scheme that the mode asks for. -/
theorem value_bind (p : Pool) (mode : ReclaimMode) (groups : Nat) :
    (p.bind mode groups).value =
      if p.isBound then ⟨p, .error .alreadyBound⟩
      else match mode.scheme groups with
        | .ok r => ⟨{ p with reclaimer := r }, .ok ()⟩
        | .error e => ⟨p, .error e⟩ := by
  unfold bind
  dsimp only
  split
  · rfl
  · cases mode with
    | wait => rfl
    | defer capacity threshold batch =>
      unfold ReclaimMode.scheme
      dsimp only
      generalize DeferQueue.new (if capacity = 0 then groups else capacity) threshold batch = made
      cases made <;> rfl

end Pool

/-! ### What keeps the scheme -/

section Scheme

open Plane

/-- Groups come and go, and the scheme stays. -/
theorem PoolMove.scheme {d d' : Desk} {es : List Event} (h : PoolMove d es d') :
    d'.plane.pool.scheme = d.plane.pool.scheme := by
  cases h with
  | @pass p held safe q max hq =>
    have hbounds := DeferQueue.bounds_takeSafe p.tracker max q
    show Reclaimer.deferring _ = p.pool.reclaimer.emptied
    rw [hq, DeferQueue.emptied_congr hbounds]
    rfl
  | push hq =>
    unfold Pool.scheme
    rw [hq]
    rfl
  | empty hq =>
    unfold Pool.scheme
    rw [hq]
    rfl
  | _ => rfl

theorem scheme_of_leads {α : Type} {p : Plane} {held safe : List Nat} {x : Traced α}
    {f : α → Desk} (h : Leads PoolMove ⟨p, held, safe⟩ x f) :
    (f x.value).plane.pool.scheme = p.pool.scheme :=
  h.keeps (P := fun d => d.plane.pool.scheme = p.pool.scheme)
    (fun hmove heq => hmove.scheme.trans heq) rfl

theorem reclaimer_drainQueue (p : Plane) (meanwhile : Meanwhile) :
    (p.drainQueue meanwhile).value.state.pool.reclaimer = p.pool.scheme := by
  unfold drainQueue Pool.scheme
  split
  · next q hq =>
    rw [hq]
    exact congrArg Reclaimer.deferring (q.queue_drain p.tracker meanwhile)
  · next hno =>
    show p.pool.reclaimer = _
    cases hq : p.pool.reclaimer with
    | deferring q => exact absurd hq (hno q)
    | _ => rfl

/-- What a fresh start leaves of the pool. -/
theorem pool_reset (p : Plane) (meanwhile : Meanwhile) :
    (p.reset meanwhile).value.pool = ⟨0, p.pool.scheme, []⟩ := by
  have hreset : (p.reset meanwhile).value.pool =
      ⟨0, ((p.synchronizeIfBound meanwhile).value.drainQueue
        meanwhile).value.state.pool.reclaimer, []⟩ := rfl
  rw [hreset, reclaimer_drainQueue, pool_synchronizeIfBound]

/-- What holds of the scheme is kept by every operation of the pool. -/
theorem lasting_scheme (Q : Reclaimer → Prop) : Pool.Lasting fun p => Q p.scheme where
  allocate {p} h := (scheme_of_leads (allocate_moves p)).symm ▸ h
  release {p} h g meanwhile := (scheme_of_leads (release_moves p g meanwhile)).symm ▸ h
  reclaim {p} h := (scheme_of_leads (reclaim_moves p)).symm ▸ h
  drain {p} h meanwhile := (scheme_of_leads (drain_moves p meanwhile)).symm ▸ h
  reset {p} h meanwhile := by
    rw [pool_reset]
    show Q p.pool.reclaimer.emptied.emptied
    rwa [Reclaimer.emptied_emptied]

end Scheme

/-! ### The mode that a history binds -/

namespace ReclaimMode

/-- The mode a table is bound in after one turn that was answered so. -/
def record (bound : Option ReclaimMode) : Turn → Option Answer → Option ReclaimMode
  | .write (.bind mode) _, some (.done (.ok ())) => some mode
  | _, _ => bound

/-- The mode a table is bound in after a history that was answered so. -/
def recorded (bound : Option ReclaimMode) : List Turn → List (Option Answer) → Option ReclaimMode
  | turn :: turns, answer :: answers => recorded (record bound turn answer) turns answers
  | _, _ => bound

end ReclaimMode

/-- The pool has the scheme of the mode it is bound in, or none. -/
def Pool.BoundIn (p : Pool) (groups : Nat) : Option ReclaimMode → Prop
  | none => p.scheme = .unbound
  | some mode => mode.scheme groups = .ok p.scheme

theorem lasting_boundIn (groups : Nat) (bound : Option ReclaimMode) :
    Pool.Lasting (·.BoundIn groups bound) := by
  cases bound with
  | none => exact lasting_scheme (· = .unbound)
  | some mode => exact lasting_scheme (mode.scheme groups = .ok ·)

/-- A binding that is refused binds nothing. -/
theorem Pool.BoundIn.bind {p : Pool} {groups : Nat} {bound : Option ReclaimMode}
    (h : p.BoundIn groups bound) (mode : ReclaimMode) (meanwhile : Meanwhile) :
    (p.bind mode groups).value.state.BoundIn groups (ReclaimMode.record bound
      (.write (.bind mode) meanwhile) (some (.done (p.bind mode groups).value.answer))) := by
  rw [Pool.value_bind]
  split
  · exact h
  · cases hscheme : mode.scheme groups with
    | error e => exact h
    | ok r =>
      show mode.scheme groups = .ok r.emptied
      rw [hscheme, ReclaimMode.emptied_scheme hscheme]

/-! ### Nothing behind the last group -/

namespace Arrays

variable {t : Arrays}

/-- The slots behind the last group are as they were at first. -/
def Trimmed (t : Arrays) : Prop :=
  ∀ j, t.groups * groupSize ≤ j → j < maxGroups * groupSize → t.slots.get j = 0

theorem trimmed_new (groups : Nat) : Trimmed { groups } := fun _ _ _ => Words.get_uniform ..

/-- A store that ends with the last group or before. -/
theorem Trimmed.slots (h : t.Trimmed) {start count : Nat} (s : Slot)
    (hend : start + count ≤ t.groups * groupSize) :
    (t.apply (.slots start count s)).Trimmed := by
  intro j hbehind hj
  rw [apply, Words.get_fill _ _ _ _ _ hj, if_neg (fun hrange => ?_)]
  · exact h j hbehind hj
  · exact absurd hrange.2 (Nat.not_lt_of_le (Nat.le_trans hend hbehind))

/-- Arrays in their shortest form are new once the buckets are empty and so are the slots of the
groups. -/
theorem Reduced.cleared (hr : t.Reduced) (ht : t.Trimmed) :
    (t.apply (.buckets 0 bucketCount .invalid)).apply (.slots 0 (t.groups * groupSize) {}) =
      { groups := t.groups } := by
  have hbuckets : t.buckets.fill 0 (0 + bucketCount) Entry.invalid.encode = .uniform 0 := by
    refine (Words.reduced_fill hr.buckets ..).ext (.uniform 0) fun i hi => ?_
    rw [Words.get_fill _ _ _ _ _ hi, if_pos ⟨Nat.zero_le i, by omega⟩, Words.get_uniform]
    rfl
  have hslots : t.slots.fill 0 (0 + t.groups * groupSize) (Slot.encode {}) = .uniform 0 := by
    refine (Words.reduced_fill hr.slots ..).ext (.uniform 0) fun j hj => ?_
    rw [Words.get_fill _ _ _ _ _ hj, Words.get_uniform, Nat.zero_add]
    split
    · rfl
    · next hrange => exact ht j (Nat.le_of_not_lt fun hlt => hrange ⟨Nat.zero_le j, hlt⟩) hj
  show Arrays.mk t.groups (t.buckets.fill _ _ _) (t.slots.fill _ _ _) = _
  rw [hbuckets, hslots]

end Arrays

section Moves

open Arrays

variable {d d' : Desk} {es : List Event}

theorem PoolMove.trimmed (h : PoolMove d es d') (ha : d.Accounted)
    (ht : d.plane.arrays.Trimmed) : d'.plane.arrays.Trimmed := by
  obtain ⟨harrays, -, -⟩ | ⟨g, harrays, -, hperm⟩ | ⟨g, hg, -, harrays, -, -⟩ := h.cases
  · exact harrays ▸ ht
  · have hkept := ha.kept (hperm.mem_iff.mpr List.mem_cons_self)
    exact harrays ▸ ht.slots _ (group_end_le hkept.1)
  · exact harrays ▸ ht.slots _ (group_end_le hg)

/-- Stores end with the group that they are in. -/
theorem TableMove.trimmed (h : TableMove d es d') (ha : d.Accounted)
    (ht : d.plane.arrays.Trimmed) : d'.plane.arrays.Trimmed := by
  cases h with
  | pool h => exact h.trimmed ha ht
  | slots hg hstart hend hs =>
    exact ht.slots _ (Nat.le_trans hend (group_end_le (lt_groups_of_names_or_safe ha hg)))
  | wipe hq hno => exact ht.slots _ (Nat.le_of_eq (Nat.zero_add _))
  | _ => exact ht

end Moves

namespace Router

open Arrays Plane

variable {s : Router} {name : String} {config : Config} {bound : Option ReclaimMode}

theorem trimmed_after (ha : s.plane.desk.Accounted) (ht : s.table.arrays.Trimmed)
    (turns : List Turn) : (s.after turns).table.arrays.Trimmed :=
  (run_moves s turns).keeps_under (Q := fun d => d.plane.arrays.Trimmed) TableMove.accounted
    TableMove.trimmed ha ht

/-! ### The table and its mode -/

/-- A turn binds the table in the mode that its answer tells, and else leaves it as it is bound. -/
theorem Stands.bound_take (h : s.Stands (·.BoundIn config.groups bound) name config)
    (turn : Turn) : (s.take turn).value.state.Stands (·.BoundIn config.groups
      (ReclaimMode.record bound turn (s.take turn).value.answer)) name config := by
  have hkept : ∀ turn : Turn, (∀ mode meanwhile, turn ≠ .write (.bind mode) meanwhile) →
      (s.take turn).value.state.Stands (·.BoundIn config.groups bound) name config :=
    fun turn hne => h.take (lasting_boundIn ..) turn fun mode meanwhile heq =>
      absurd heq (hne mode meanwhile)
  cases turn with
  | write c meanwhile =>
    cases c with
    | bind mode =>
      have hanswer : (s.take (.write (.bind mode) meanwhile)).value.answer =
          some (.done (s.table.pool.bind mode s.table.config.groups).value.answer) := rfl
      rw [hanswer, h.sized]
      exact h.bind (Pool.BoundIn.bind h.pool mode meanwhile)
    | _ => exact hkept _ nofun
  | _ => exact hkept _ nofun

/-- A history leaves the table with its name and sizing, bound in the mode that the answers tell. -/
theorem Stands.bound_run (h : s.Stands (·.BoundIn config.groups bound) name config)
    (turns : List Turn) : (s.run turns).value.state.Stands (·.BoundIn config.groups
      (ReclaimMode.recorded bound turns (s.run turns).value.answer)) name config := by
  induction turns generalizing s bound with
  | nil => exact h
  | cons turn turns ih => exact ih (h.bound_take turn)

/-! ### What is left of an emptied table -/

theorem pool_deleteAll (s : Router) (meanwhile : Meanwhile) :
    (s.deleteAll meanwhile).value.table.pool = ⟨0, s.table.pool.scheme, []⟩ :=
  pool_reset (s.plane.setArrays _) meanwhile

theorem arrays_deleteAll (hr : s.table.arrays.Reduced) (ht : s.table.arrays.Trimmed)
    (meanwhile : Meanwhile) :
    (s.deleteAll meanwhile).value.table.arrays = { groups := s.table.arrays.groups } :=
  (arrays_reset (s.plane.setArrays _) meanwhile).trans (hr.cleared ht)

/-- A table that has just been made and, if there is a mode, bound in it, to the readers that a
tracker knows. -/
def renewed (name : String) (config : Config) (bound : Option ReclaimMode) (tracker : Tracker) :
    Outcome Router (Except Failure Unit) :=
  let s : Router := ⟨.empty name config, tracker⟩
  match bound with
  | none => ⟨s, .ok ()⟩
  | some mode => (s.bind mode).value

/-- What a new table has beside its name and sizing is the scheme of its mode. -/
theorem renewed_eq (name : String) {config : Config} {p : Pool}
    (h : p.BoundIn config.groups bound) (tracker : Tracker) :
    renewed name config bound tracker =
      ⟨⟨{ Table.empty name config with pool := ⟨0, p.scheme, []⟩ }, tracker⟩, .ok ()⟩ := by
  cases bound with
  | none =>
    rw [show p.scheme = .unbound from h]
    rfl
  | some mode =>
    have hbind : (Pool.bind {} mode config.groups).value = ⟨⟨0, p.scheme, []⟩, .ok ()⟩ := by
      rw [Pool.value_bind, show mode.scheme config.groups = .ok p.scheme from h]
      rfl
    unfold renewed bind
    dsimp only
    rw [Traced.value_bind]
    exact congrArg (fun out : Outcome Pool (Except Failure Unit) =>
      Outcome.mk (Router.mk { Table.empty name config with pool := out.state } tracker) out.answer)
      hbind

/-- What stands and arrays that are new make a new table. -/
theorem Stands.renewed (h : s.Stands (·.BoundIn config.groups bound) name config)
    (hr : s.table.arrays.Reduced) (ht : s.table.arrays.Trimmed)
    (hgroups : s.table.arrays.groups = config.groups) (meanwhile : Meanwhile) :
    Router.renewed name config bound (s.deleteAll meanwhile).value.tracker =
      ⟨(s.deleteAll meanwhile).value, .ok ()⟩ := by
  have hpool := pool_deleteAll s meanwhile
  have harrays := arrays_deleteAll hr ht meanwhile
  have hrules : (s.deleteAll meanwhile).value.table.rules = .new config.maxRules :=
    congrArg RuleStore.new h.capacity
  have hname : (s.deleteAll meanwhile).value.table.name = name := h.named
  have hsized : (s.deleteAll meanwhile).value.table.config = config := h.sized
  rw [renewed_eq name h.pool]
  generalize (s.deleteAll meanwhile).value = s' at hpool harrays hrules hname hsized ⊢
  obtain ⟨⟨name', config', rules, arrays, pool⟩, tracker⟩ := s'
  simp only at hpool harrays hrules hname hsized
  rw [hpool, harrays, hrules, hname, hsized, hgroups]
  rfl

/-! ### Histories -/

/-- After every history, whatever is stored, linked, queued or stranded: a table that is emptied
has the rules, the arrays and the figures of a new one and nothing that waits, and from then on it
does what a table does that was just made and bound in the same mode. Nothing is released that was
not allocated since. -/
theorem deleteAll_renews (name : String) (config : Config) (hgroups : config.groups ≤ maxGroups)
    (maxReaders : Nat) (turns : List Turn) (meanwhile : Meanwhile) :
    let past := ((fresh name config maxReaders).run turns).value
    let s := (past.state.deleteAll meanwhile).value
    let made := Router.renewed name config (ReclaimMode.recorded none turns past.answer) s.tracker
    s.table.rules = .new config.maxRules ∧
      (∀ i, s.table.arrays.buckets.get i = 0) ∧ (∀ j, s.table.arrays.slots.get j = 0) ∧
      s.table.pool.inUse = 0 ∧ s.table.pool.stranded = [] ∧
      (∀ q, s.table.pool.reclaimer = .deferring q → q.parked = none ∧ q.waiting = []) ∧
      made = ⟨s, .ok ()⟩ ∧ ∀ more, s.run more = made.state.run more ∧
        Metric.total "lpm_groups_released_total" (s.run more).metrics ≤
          Metric.total "lpm_groups_allocated_total" (s.run more).metrics := by
  intro past s made
  have hfresh := holds_fresh name hgroups maxReaders
  have hholds : past.state.Holds _ := holds_fresh_run name hgroups maxReaders turns
  have hstart : (fresh name config maxReaders).Stands (·.BoundIn config.groups none) name config :=
    stands_fresh name config maxReaders rfl
  have hstands : past.state.Stands _ name config := hstart.bound_run turns
  have hreduced : past.state.table.arrays.Reduced := reduced_after (reduced_new config.groups) turns
  have htrimmed : past.state.table.arrays.Trimmed :=
    trimmed_after hfresh.accounted (trimmed_new config.groups) turns
  have hmade : made = ⟨s, .ok ()⟩ :=
    hstands.renewed hreduced htrimmed (groups_after _ turns) meanwhile
  have hpool : s.table.pool = ⟨0, past.state.table.pool.scheme, []⟩ := pool_deleteAll ..
  have harrays : s.table.arrays = _ := arrays_deleteAll hreduced htrimmed meanwhile
  refine ⟨congrArg RuleStore.new hstands.capacity, fun i => ?_, fun j => ?_, ?_, ?_, fun q hq => ?_,
    hmade, fun more => ⟨?_, ?_⟩⟩
  · rw [harrays, Words.get_uniform]
  · rw [harrays, Words.get_uniform]
  · rw [hpool]
  · rw [hpool]
  · rw [hpool] at hq
    unfold Pool.scheme at hq
    cases hr : past.state.table.pool.reclaimer with
    | deferring q' =>
      rw [hr] at hq
      cases hq
      exact ⟨rfl, rfl⟩
    | _ =>
      rw [hr] at hq
      cases hq
  · rw [hmade]
  · have hempty : s.Holds fun _ => none := holds_deleteAll hholds meanwhile
    have hcounted := (published_run hempty more).groups
    have hnone : s.tally.groups = 0 := congrArg Pool.inUse hpool
    omega

/-- One group serves two rules, one is parked in front of the queue and one is stranded. -/
theorem deleteAll_renews_exhausted :
    let past := ((fresh "edge" ⟨8, 3⟩ 1).run exhaustion).value
    let s := (past.state.deleteAll fun _ => [.quiescent 0]).value
    past.state.table.pool = ⟨3, .deferring ⟨1, 1, 1, some ⟨2, 1⟩, []⟩, [2]⟩ ∧
      s.table.pool.stranded = [] ∧
      Router.renewed "edge" ⟨8, 3⟩ (some (.defer 1 1 1)) s.tracker = ⟨s, .ok ()⟩ := by
  have hpending : ((fresh "edge" ⟨8, 3⟩ 1).run exhaustion).value.state.table.pool =
      ⟨3, .deferring ⟨1, 1, 1, some ⟨2, 1⟩, []⟩, [2]⟩ := by decide +kernel
  have hbound : ReclaimMode.recorded none exhaustion
      ((fresh "edge" ⟨8, 3⟩ 1).run exhaustion).value.answer = some (.defer 1 1 1) := by
    decide +kernel
  obtain ⟨-, -, -, -, hstranded, -, hmade, -⟩ :=
    deleteAll_renews "edge" ⟨8, 3⟩ (by decide) 1 exhaustion fun _ => [.quiescent 0]
  rw [hbound] at hmade
  dsimp only
  exact ⟨hpending, hstranded, hmade⟩

end Router

end Dir248
