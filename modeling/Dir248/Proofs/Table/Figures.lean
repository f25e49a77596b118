import Dir248.Proofs.Groups.Figures
import Dir248.Proofs.Table.Faultless
import Dir248.Proofs.Table.Space

/-!
# The figures of a table

A listener that adds up what a table publishes knows how many rules the table stores and how many
groups it uses, without ever asking. A rule is counted when it has reached the arrays, so one that
is taken back is not, and a rule that goes is counted even when its group is turned away. A table
that is emptied publishes neither the rules nor the groups it drops; what it dropped is what it had
just before.

* **`Router.tally`** — how many groups and rules there are.
* **`Router.published_add`** to **`Router.published_bind`** — one law for each operation.
* **`Router.wipedBy`** — the tally just before each time the table was emptied, added up.
* **`Router.published_run`**, **`Router.figures_run`** — the figures of a whole history.
-/

namespace Dir248

open Traced

/-! ### The arrays publish nothing -/

namespace Arrays

@[simp] theorem metrics_sweepSlots (t : Arrays) (lo hi : Nat) (change : Slot → Option Slot) :
    (t.sweepSlots lo hi change).metrics = [] := by
  unfold sweepSlots
  rw [metrics_bind, metrics_require, List.nil_append]
  refine metrics_foldlM_eq_nil (fun t p => ?_) _ _
  split
  · exact metrics_store ..
  · exact metrics_pure _

theorem metrics_sweepStretch (onEntry : Entry → Option Entry) (onSlot : Slot → Option Slot)
    (t : Arrays) (p : Piece) : (sweepStretch onEntry onSlot t p).metrics = [] := by
  unfold sweepStretch
  split
  · exact metrics_foldlM_eq_nil (fun t _ => metrics_sweepSlots ..) _ _
  · split
    · exact metrics_store ..
    · exact metrics_pure _

@[simp] theorem metrics_sweepBuckets (t : Arrays) (lo hi : Nat) (onEntry : Entry → Option Entry)
    (onSlot : Slot → Option Slot) : (t.sweepBuckets lo hi onEntry onSlot).metrics = [] := by
  unfold sweepBuckets
  rw [metrics_bind, metrics_require, List.nil_append]
  exact metrics_foldlM_eq_nil (metrics_sweepStretch onEntry onSlot) _ _

end Arrays

@[simp] theorem RuleStore.metrics_add (s : RuleStore) (r : Rule) : (s.add r).metrics = [] := by
  unfold add
  split
  · dsimp only
    split <;> rfl
  · split <;> simp

namespace Plane

variable {p : Plane}

@[simp] theorem metrics_insertShallow (p : Plane) (r : Rule) :
    (p.insertShallow r).metrics = [] := by
  simp [insertShallow]

@[simp] theorem metrics_removeShallow (p : Plane) (route : Prefix) (cover : Option Route) :
    (p.removeShallow route cover).metrics = [] := by
  simp [removeShallow]

@[simp] theorem metrics_linkGroup (p : Plane) (g : Nat) (current : Entry) (r : Rule) :
    (p.linkGroup g current r).metrics = [] := by
  cases current <;> simp [linkGroup]

theorem groups_linkGroup (p : Plane) (g : Nat) (current : Entry) (r : Rule) :
    (p.linkGroup g current r).value.arrays.groups = p.arrays.groups := by
  cases current <;> rfl

/-- A rule that comes publishes the group it is given. -/
theorem publishes_insertDeep {r : Rule} (h : (p.insertDeep r).Faultless) :
    p.Publishes (p.insertDeep r) Outcome.state := by
  unfold insertDeep at h ⊢
  split at h
  · refine publishes_silent (by simp) ?_ rfl
    exact Arrays.groups_sweepSlots ..
  · refine (publishes_allocate h.of_bind.1).bind ?_
    generalize p.allocate.value = out
    obtain ⟨s, answer⟩ := out
    cases answer with
    | error e => exact publishes_silent rfl rfl rfl
    | ok g =>
      refine publishes_silent (by simp) (groups_linkGroup ..) ?_
      exact congrArg Pool.inUse (pool_linkGroup ..)

/-- A rule that goes publishes the groups that come back on its account. -/
theorem publishes_removeDeep {route : Prefix} {cover : Option Route} {meanwhile : Meanwhile}
    (h : (p.removeDeep route cover meanwhile).Faultless) :
    p.Publishes (p.removeDeep route cover meanwhile) Outcome.state := by
  unfold removeDeep at h ⊢
  split at h
  · next g hg =>
    have hswept : p.Publishes (p.arrays.sweepSlots (route.slotRange g).1 (route.slotRange g).2
        (Slot.cede route.depth cover)) p.setArrays :=
      publishes_silent (Arrays.metrics_sweepSlots ..) (Arrays.groups_sweepSlots ..) rfl
    refine hswept.bind ?_
    have hrest := h.of_bind.2
    generalize (p.arrays.sweepSlots (route.slotRange g).1 (route.slotRange g).2
      (Slot.cede route.depth cover)).value = t at hrest ⊢
    split at hrest
    · exact publishes_silent rfl rfl rfl
    · next left hfold =>
      have hstored : (p.setArrays t).Publishes (t.store (.buckets (bucket route.base) 1 left))
          p.setArrays := publishes_silent (Arrays.metrics_store ..) rfl rfl
      refine hstored.bind ?_
      have hlog : (p.setArrays (t.apply (.buckets (bucket route.base) 1 left))).Publishes
          (log (.groupUnlinked g (bucket route.base) left))
          fun _ => p.setArrays (t.apply (.buckets (bucket route.base) 1 left)) :=
        publishes_silent rfl rfl rfl
      exact hlog.bind (settles_release hrest.of_bind.2.of_bind.2).publishes
  · refine publishes_silent ?_ rfl rfl
    simp

end Plane

/-- The figures of an addition that ends so: a rule is counted when it is new. -/
def AddOutcome.figures : AddOutcome → List Metric
  | .inserted => [.ruleAdded]
  | _ => []

namespace Router

open Dir248.Metric Plane

/-- How many groups are in use and how many rules are stored. -/
def tally (s : Router) : Tally := ⟨s.table.pool.inUse, s.table.rules.size⟩

variable {s : Router} {m : RuleMap}

/-! ### Adding -/

theorem metrics_added (s : Router) (r : Rule) (outcome : AddOutcome) :
    (s.added r outcome).metrics = outcome.figures := by
  cases outcome <;> rfl

@[simp] theorem metrics_undo (rules : RuleStore) (depth : Nat) (stored : Stored) :
    (undo rules depth stored).metrics = [] := by
  cases stored <;> simp [undo]

/-- The arrays follow the store and the rule is counted, or it is taken back uncounted. -/
theorem published_project {all n : Nat} (hall : s.table.arrays.groups = all) {r : Rule}
    {stored : Stored} {outcome : AddOutcome}
    (hcounted : ∀ groups, Tally.Published all ⟨groups, n⟩ ⟨groups, s.table.rules.size⟩ {}
      outcome.figures)
    (hundo : (undo s.table.rules r.route.depth stored).value.size = n)
    (h : (s.project r stored outcome).Faultless) :
    Tally.Published all ⟨s.table.pool.inUse, n⟩ (s.project r stored outcome).value.state.tally {}
      (s.project r stored outcome).metrics := by
  unfold project at h ⊢
  split at h
  · next hd =>
    rw [if_pos hd, metrics_bind, metrics_insertShallow, metrics_added, value_bind, value_added]
    exact hcounted _
  · next hd =>
    have hplane : Tally.Published all ⟨s.table.pool.inUse, n⟩
        ⟨(s.plane.insertDeep r).value.state.pool.inUse, n⟩ {} (s.plane.insertDeep r).metrics :=
      hall ▸ (publishes_insertDeep h.of_bind.1).figures n
    rw [if_neg hd, metrics_bind, value_bind]
    refine hplane.append ?_
    generalize (s.plane.insertDeep r).value = out
    obtain ⟨p, answer⟩ := out
    dsimp only
    cases answer with
    | ok u =>
      dsimp only
      rw [metrics_added, value_added]
      exact hcounted _
    | error e =>
      have hback : ((s.setPlane p).setRules
          (undo (s.setPlane p).table.rules r.route.depth stored).value).tally =
            ⟨p.pool.inUse, n⟩ := congrArg (Tally.mk p.pool.inUse) hundo
      rw [metrics_bind, metrics_undo, metrics_bind, metrics_log, metrics_pure, value_bind,
        value_bind, value_pure]
      dsimp only
      rw [hback]
      exact .refl ..

theorem published_addRule (h : s.Holds m) {r : Rule} (hr : r.route.IsBlock)
    (hh : r.nextHop ≤ maxNextHop) :
    Tally.Published s.table.arrays.groups s.tally (s.addRule r).value.state.tally {}
      (s.addRule r).metrics := by
  have hfaultless := (faultless_addRule h hr hh).of_bind.2
  have hadded := s.table.rules.added_add hr.depth
  have hpacked := h.wellFormed.packed
  unfold addRule
  rw [metrics_bind, RuleStore.metrics_add, List.nil_append, value_bind]
  generalize (s.table.rules.add r).value = out at hadded hfaultless ⊢
  cases hadded with
  | known =>
    dsimp only
    rw [metrics_bind, metrics_log, metrics_pure, value_bind, value_pure]
    exact .refl ..
  | full =>
    dsimp only
    rw [metrics_bind, metrics_log, metrics_pure, value_bind, value_pure]
    exact .refl ..
  | @changed place previous =>
    have hsize := RuleStore.size_setNextHop s.table.rules place r.nextHop
    have hback := RuleStore.size_setNextHop (s.table.rules.setNextHop place r.nextHop) place
      previous
    refine published_project (s := s.setRules (s.table.rules.setNextHop place r.nextHop)) rfl
      (fun groups => ?_) (hback.trans hsize) hfaultless
    rw [show (s.setRules (s.table.rules.setNextHop place r.nextHop)).table.rules.size = _
      from hsize]
    exact .refl ..
  | fresh hmap hnew hroom =>
    have hplace := RuleStore.used_pos_of_mem (hpacked.placeFor_mem hr.depth)
    have hsize := RuleStore.size_insert s.table.rules r hr.depth
    have hundone := RuleStore.size_remove (s.table.rules.insert r)
      (s.table.rules.placeFor r.route.depth) hr.depth hplace
    refine published_project (s := s.setRules (s.table.rules.insert r)) rfl (fun groups => ?_)
      (Nat.succ.inj (hundone.trans hsize)) hfaultless
    rw [show (s.setRules (s.table.rules.insert r)).table.rules.size = _ from hsize]
    exact Tally.published_ruleAdded ..

theorem published_add (h : s.Holds m) (a : Address) (depth nextHop : Nat) :
    Tally.Published s.table.arrays.groups s.tally (s.add a depth nextHop).value.state.tally {}
      (s.add a depth nextHop).metrics := by
  unfold add
  split
  · exact .refl ..
  · next hd =>
    split
    · exact .refl ..
    · next hh =>
      exact published_addRule h (Prefix.isBlock_of a (Decidable.not_not.mp hd))
        (Nat.le_of_not_lt hh)

/-! ### Deleting -/

/-- The groups that come back on account of a rule are counted, whatever becomes of its own. -/
theorem published_withdraw {route : Prefix} {cover : Option Route} {meanwhile : Meanwhile}
    (h : (s.withdraw route cover meanwhile).Faultless) :
    Tally.Published s.table.arrays.groups s.tally
      (s.withdraw route cover meanwhile).value.state.tally {}
      (s.withdraw route cover meanwhile).metrics := by
  unfold withdraw at h ⊢
  split at h
  · next hd =>
    rw [if_pos hd, metrics_bind, metrics_removeShallow]
    exact .refl ..
  · next hd =>
    rw [if_neg hd, metrics_bind, metrics_pure, List.append_nil]
    exact (publishes_removeDeep h.of_bind.1).figures s.table.rules.size

theorem published_deleteAt (h : s.Holds m) {place : Nat} {q : Prefix} (hq : q.IsBlock)
    (hplace : s.table.rules.find? q = some place) (meanwhile : Meanwhile) :
    Tally.Published s.table.arrays.groups s.tally (s.deleteAt place q meanwhile).value.state.tally
      {} (s.deleteAt place q meanwhile).metrics := by
  have hfaultless := (faultless_deleteAt h hq hplace meanwhile).of_bind.2.of_bind.2.of_bind.2
  have hmem := (RuleStore.find?_eq_some hplace).1
  have hsize := RuleStore.size_remove s.table.rules place hq.depth
    (RuleStore.used_pos_of_mem hmem)
  have hcounted : Tally.Published s.table.arrays.groups s.tally
      (s.setRules (s.table.rules.remove place q.depth)).tally {} [.ruleDeleted] := by
    have hgone := Tally.published_ruleDeleted s.table.arrays.groups s.table.pool.inUse
      (s.table.rules.remove place q.depth).size
    rwa [hsize] at hgone
  unfold deleteAt
  rw [metrics_bind, metrics_require, metrics_bind, metrics_publish, metrics_bind, metrics_log,
    List.nil_append, List.nil_append, value_bind, value_bind, value_bind]
  have hwithdrawn := published_withdraw hfaultless
  exact hcounted.append hwithdrawn

theorem published_delete (h : s.Holds m) (a : Address) (depth : Nat) (meanwhile : Meanwhile) :
    Tally.Published s.table.arrays.groups s.tally
      (s.delete a depth meanwhile).value.state.tally {} (s.delete a depth meanwhile).metrics := by
  unfold delete
  split
  · exact .refl ..
  · next hd =>
    split
    · exact .refl ..
    · next place hplace =>
      exact published_deleteAt h (Prefix.isBlock_of a (Decidable.not_not.mp hd)) hplace meanwhile

/-- A table that is emptied tells that all groups are free, and nothing of what it drops. -/
theorem published_deleteAll (s : Router) (meanwhile : Meanwhile) :
    Tally.Published s.table.arrays.groups s.tally (s.deleteAll meanwhile).value.tally s.tally
      (s.deleteAll meanwhile).metrics := by
  have hms : (s.deleteAll meanwhile).metrics = [.freeGroups s.table.arrays.groups] := by
    simp [deleteAll, Arrays.clearBuckets, metrics_reset, Arrays.groups_apply]
  have hnone : (s.deleteAll meanwhile).value.tally = {} :=
    congrArg (Tally.mk 0) (RuleStore.size_new s.table.rules.capacity)
  rw [hms, hnone]
  exact Tally.published_wiped ..

/-! ### The rest -/

theorem published_reclaim (h : s.Holds m) :
    Tally.Published s.table.arrays.groups s.tally s.reclaim.value.state.tally {}
      s.reclaim.metrics := by
  have hfreed := (publishes_reclaim (faultless_reclaim h.accounted)).figures s.table.rules.size
  unfold reclaim
  rw [metrics_bind, metrics_pure, List.append_nil]
  exact hfreed

theorem published_settle (h : s.Holds m) (meanwhile : Meanwhile) :
    Tally.Published s.table.arrays.groups s.tally (s.settle meanwhile).value.tally {}
      (s.settle meanwhile).metrics := by
  have hfreed := (settles_drain (faultless_drain h.accounted meanwhile)).publishes.figures
    s.table.rules.size
  unfold settle
  rw [metrics_bind, metrics_bind, metrics_log, metrics_pure, List.append_nil, List.append_nil]
  exact hfreed

/-- To bind a scheme publishes nothing and leaves the groups alone. -/
theorem silent_bind (p : Pool) (mode : ReclaimMode) (groups : Nat) :
    (p.bind mode groups).metrics = [] ∧ (p.bind mode groups).value.state.inUse = p.inUse := by
  unfold Pool.bind
  dsimp only
  split
  · exact ⟨rfl, rfl⟩
  · split
    · exact ⟨rfl, rfl⟩
    · split <;> exact ⟨rfl, rfl⟩

theorem published_bind (s : Router) (mode : ReclaimMode) :
    Tally.Published s.table.arrays.groups s.tally (s.bind mode).value.state.tally {}
      (s.bind mode).metrics := by
  obtain ⟨hms, huse⟩ := silent_bind s.table.pool mode s.table.config.groups
  have htally : (s.bind mode).value.state.tally = s.tally :=
    congrArg (Tally.mk · s.table.rules.size) huse
  rw [htally, bind, metrics_bind, metrics_pure, hms]
  exact .refl ..

/-! ### Histories -/

/-- What a turn wipes: a table that is emptied drops all it has. -/
def wiped (s : Router) : Turn → Tally
  | .write .deleteAll _ => s.tally
  | _ => {}

/-- The figures of one turn account for what it does, but for what it wipes. -/
theorem published_take (h : s.Holds m) (turn : Turn) :
    Tally.Published s.table.arrays.groups s.tally (s.take turn).value.state.tally (s.wiped turn)
      (s.take turn).metrics := by
  have hsame : ∀ s' : Router, s'.table = s.table → Tally.Published s.table.arrays.groups s.tally
      s'.tally {} [] := by
    intro s' htable
    rw [show s'.tally = s.tally by rw [tally, htable, tally]]
    exact .refl ..
  cases turn with
  | write c meanwhile =>
    cases c with
    | add a depth nextHop => simpa [take, perform, wiped] using published_add h a depth nextHop
    | delete a depth => simpa [take, perform, wiped] using published_delete h a depth meanwhile
    | deleteAll => simpa [take, perform, wiped] using published_deleteAll s meanwhile
    | reclaim => simpa [take, perform, wiped] using published_reclaim h
    | bind mode => simpa [take, perform, wiped] using published_bind s mode
    | settle => simpa [take, perform, wiped] using published_settle h meanwhile
  | read step => exact hsame _ rfl
  | grace => exact hsame _ rfl

/-- What a history wipes, added up. -/
def wipedBy (s : Router) : List Turn → Tally
  | [] => {}
  | turn :: turns => s.wiped turn + (s.take turn).value.state.wipedBy turns

/-- The figures of a history account for what it does, but for what it wipes. -/
theorem published_run (h : s.Holds m) (turns : List Turn) :
    Tally.Published s.table.arrays.groups s.tally (s.after turns).tally (s.wipedBy turns)
      (s.run turns).metrics := by
  induction turns generalizing s m with
  | nil => exact .refl ..
  | cons turn turns ih =>
    have hrest := ih (holds_take h turn)
    rw [show (s.take turn).value.state.table.arrays.groups = s.table.arrays.groups from
      groups_after s [turn]] at hrest
    have hms : (s.run (turn :: turns)).metrics =
        (s.take turn).metrics ++ ((s.take turn).value.state.run turns).metrics := by
      simp [run]
    rw [hms, after_cons, wipedBy]
    exact (published_take h turn).trans hrest

/-- After every history the gauge shows how many groups are free, if it shows anything, and the
counters come to the groups in use and the rules stored, beside those that were there just before
each time the table was emptied. -/
theorem figures_run (name : String) (config : Config) (hgroups : config.groups ≤ maxGroups)
    (maxReaders : Nat) (turns : List Turn) :
    let s := fresh name config maxReaders
    let ms := (s.run turns).metrics
    let stats := (s.after turns).table.stats
    (∀ n, latest? "lpm_free_groups" ms = some n → n + stats.groupsInUse = config.groups) ∧
      (latest? "lpm_free_groups" ms = none → stats.groupsInUse = 0) ∧
      total "lpm_groups_allocated_total" ms = total "lpm_groups_released_total" ms +
        (stats.groupsInUse + (s.wipedBy turns).groups) ∧
      total "lpm_rules_added_total" ms = total "lpm_rules_deleted_total" ms +
        (stats.rules + (s.wipedBy turns).rules) := by
  intro s ms stats
  have hall : (s.after turns).table.arrays.groups = config.groups := groups_after s turns
  have hle : stats.groupsInUse ≤ config.groups :=
    hall ▸ (holds_fresh_run name hgroups maxReaders turns).accounted.inUse_le
  have hempty : s.tally = {} := congrArg (Tally.mk 0) (RuleStore.size_new config.maxRules)
  have hpublished := published_run (holds_fresh name hgroups maxReaders) turns
  rw [show (fresh name config maxReaders).tally = {} from hempty] at hpublished
  obtain ⟨hcounted, hrules, hshown⟩ := hpublished
  refine ⟨fun n hn => ?_, fun hnone => ?_, ?_, ?_⟩
  · rcases hshown with hlast | ⟨hnone, -⟩
    · obtain rfl := Option.some.inj (hn.symm.trans hlast)
      exact Nat.sub_add_cancel hle
    · exact absurd (hn.symm.trans hnone) nofun
  · rcases hshown with hlast | ⟨-, hsame⟩
    · exact absurd (hnone.symm.trans hlast) nofun
    · exact hsame
  · exact (Nat.zero_add _).symm.trans (hcounted.trans (Nat.add_comm ..))
  · exact (Nat.zero_add _).symm.trans (hrules.trans (Nat.add_comm ..))

/-- Three groups are handed out and dropped again with the two rules that are left, a stranded one
among them. -/
theorem figures_run_exhausted :
    let s := fresh "edge" ⟨8, 3⟩ 1
    let turns := exhaustion ++ [.read (.offline 0), .write .deleteAll fun _ => []]
    let ms := (s.run turns).metrics
    s.wipedBy turns = ⟨3, 2⟩ ∧ (∀ n, latest? "lpm_free_groups" ms = some n → n = 3) ∧
      total "lpm_groups_allocated_total" ms = total "lpm_groups_released_total" ms + 3 ∧
      total "lpm_rules_added_total" ms = total "lpm_rules_deleted_total" ms + 2 := by
  intro s turns ms
  have hwiped : s.wipedBy turns = ⟨3, 2⟩ := by decide +kernel
  have hleft : (s.after turns).table.stats.groupsInUse = 0 := by decide +kernel
  have hrules : (s.after turns).table.stats.rules = 0 := by decide +kernel
  obtain ⟨hshown, -, hgroups, hcount⟩ := figures_run "edge" ⟨8, 3⟩ (by decide) 1 turns
  rw [hleft, hwiped] at hgroups
  rw [hrules, hwiped] at hcount
  refine ⟨hwiped, fun n hn => ?_, hgroups, hcount⟩
  have hfree := hshown n hn
  rwa [hleft] at hfree

end Router

end Dir248
