import Dir248.Proofs.Realization
import Dir248.Proofs.Store.Additions
import Dir248.Proofs.Table.Holdings

/-!
# What each operation does to the rules of a table

A table holds a map of rules when its store is that map and its arrays realize it. Every
operation leaves the table with a map again, and which one it is can be told from the answer
of the operation. An addition that finds no group is undone, and a removal that finds no
room in the defer queue stands.

* **`Router.Holds`** — the table holds a map of rules.
* **`RuleMap.afterAdd`**, **`RuleMap.afterDelete`** — what an answer says about the rules.
* **`Router.holds_add`** to **`Router.holds_settle`** — one law for each operation.
-/

namespace Dir248

/-- The store is the map, the arrays realize it, and the groups are accounted for. -/
structure Router.Holds (s : Router) (m : RuleMap) : Prop where
  wellFormed : s.table.rules.WellFormed
  toMap : s.table.rules.toMap = m
  valid : m.Valid
  realizes : s.table.arrays.Realizes m
  accounted : s.plane.desk.Accounted

namespace RuleMap

/-- The rules after an addition that was answered so. -/
def afterAdd (m : RuleMap) (p : Prefix) (hop : Nat) : Except Failure AddOutcome → RuleMap
  | .ok _ => Function.update m p (some hop)
  | .error _ => m

/-- The rules after a removal that was answered so. A rule whose group could not be taken
back is gone all the same. -/
def afterDelete (m : RuleMap) (p : Prefix) : Except Failure Unit → RuleMap
  | .ok () => Function.update m p none
  | .error .reclamationUnavailable => Function.update m p none
  | .error _ => m

end RuleMap

namespace Plane

/-- The answers of an operation that gives a group back. -/
def Released (answer : Except Failure Unit) : Prop :=
  answer = .ok () ∨ answer = .error .reclamationUnavailable

theorem released_defer (p : Plane) (g : Nat) : Released (p.defer g).value.answer := by
  unfold defer
  split
  · next q _ =>
    have hsent := q.sent_enqueue g p.tracker
    show Released (q.enqueue g p.tracker).value.answer
    generalize (q.enqueue g p.tracker).value = sent at hsent ⊢
    cases hsent with
    | queued => exact .inl rfl
    | rejected => exact .inr rfl
  · exact .inr rfl

theorem released_release (p : Plane) (g : Nat) (meanwhile : Meanwhile) :
    Released (p.release g meanwhile).value.answer := by
  unfold release
  split
  · exact .inl rfl
  · exact .inl rfl
  · have hanswer := released_defer (p.requeue p.pool.stranded).value g
    simp only [Traced.value_bind]
    generalize ((p.requeue p.pool.stranded).value.defer g).value = sent at hanswer ⊢
    obtain ⟨s, answer⟩ := sent
    cases answer with
    | ok u => exact .inl rfl
    | error e => exact hanswer

theorem released_removeDeep (p : Plane) (route : Prefix) (cover : Option Route)
    (meanwhile : Meanwhile) : Released (p.removeDeep route cover meanwhile).value.answer := by
  cases he : p.arrays.entryAt (bucket route.base) with
  | group g =>
    cases hfold : foldedEntry ((swept p.arrays route cover g).verdict g) with
    | none =>
      rw [removeDeep_keep he meanwhile hfold]
      exact .inl rfl
    | some left =>
      rw [removeDeep_fold he meanwhile hfold]
      exact released_release _ g meanwhile
  | invalid | leaf =>
    unfold removeDeep
    rw [he]
    exact .inl rfl

theorem arrays_synchronizeIfBound (p : Plane) (meanwhile : Meanwhile) :
    (p.synchronizeIfBound meanwhile).value.arrays = p.arrays := by
  unfold synchronizeIfBound
  split <;> rfl

theorem arrays_drainQueue (p : Plane) (meanwhile : Meanwhile) :
    (p.drainQueue meanwhile).value.state.arrays = p.arrays := by
  unfold drainQueue
  split <;> rfl

/-- A fresh start empties the slots of all groups. -/
theorem arrays_reset (p : Plane) (meanwhile : Meanwhile) :
    (p.reset meanwhile).value.arrays =
      p.arrays.apply (.slots 0 (p.arrays.groups * groupSize) {}) := by
  show Arrays.apply
    (((p.synchronizeIfBound meanwhile).value.drainQueue meanwhile).value.state.arrays)
    (.slots 0 (((p.synchronizeIfBound meanwhile).value.drainQueue
      meanwhile).value.state.arrays.groups * groupSize) {}) = _
  rw [arrays_drainQueue, arrays_synchronizeIfBound]

/-- A fresh start leaves the first level as it is. -/
theorem buckets_reset (p : Plane) (meanwhile : Meanwhile) :
    (p.reset meanwhile).value.arrays.buckets = p.arrays.buckets := by
  rw [arrays_reset]
  rfl

end Plane

namespace Router

open Arrays Plane Traced

variable {s : Router} {m : RuleMap}

theorem holds_fresh (name : String) {config : Config} (hgroups : config.groups ≤ maxGroups)
    (maxReaders : Nat) : (fresh name config maxReaders).Holds fun _ => none :=
  ⟨RuleStore.wellFormed_new _, RuleStore.toMap_new _, RuleMap.valid_empty,
    realizes_empty fun _ => entryAt_new .., accounted_fresh name hgroups maxReaders⟩

/-- A router with the same rules whose arrays read the same holds the same map. -/
theorem Holds.of_sameReads (h : s.Holds m) {s' : Router} (hrules : s'.table.rules = s.table.rules)
    (hreads : s.table.arrays.SameReads s'.table.arrays) (ha : s'.plane.desk.Accounted) :
    s'.Holds m :=
  ⟨hrules ▸ h.wellFormed, hrules ▸ h.toMap, h.valid, h.realizes.of_sameReads hreads, ha⟩

/-! ### Adding -/

theorem value_added (s : Router) (r : Rule) (outcome : AddOutcome) :
    (s.added r outcome).value = ⟨s, .ok outcome⟩ := by
  cases outcome <;> rfl

/-- The arrays follow the store, or the store is taken back. -/
theorem project_spec (hm : s.table.arrays.Realizes m) (ha : s.plane.desk.Accounted) {r : Rule}
    (hr : r.route.IsBlock) (hh : r.nextHop ≤ maxNextHop) (stored : Stored) (outcome : AddOutcome) :
    (∃ s', (s.project r stored outcome).value = ⟨s', .ok outcome⟩ ∧
      s'.table.rules = s.table.rules ∧
      s'.table.arrays.Realizes (Function.update m r.route (some r.nextHop))) ∨
    ∃ s' e, (s.project r stored outcome).value = ⟨s', .error e⟩ ∧
      s'.table.rules = (undo s.table.rules r.route.depth stored).value ∧
      s'.table.arrays.Realizes m := by
  unfold project
  split
  · next hd =>
    have hrealizes : (s.plane.insertShallow r).value.arrays.Realizes _ :=
      Realizes.insertShallow hm ha hr hd hh
    exact .inl ⟨_, value_added _ r outcome, rfl, hrealizes⟩
  · next hd =>
    have hspec := Realizes.insertDeep hm ha hr (Nat.lt_of_not_le hd) hh
    rw [value_bind]
    generalize (s.plane.insertDeep r).value = out at hspec ⊢
    obtain ⟨p, answer⟩ := out
    obtain ⟨hok, hrealizes⟩ | ⟨e, herr, hrealizes⟩ := hspec
    · cases hok
      exact .inl ⟨_, value_added _ r outcome, rfl, hrealizes⟩
    · cases herr
      exact .inr ⟨_, e, rfl, rfl, hrealizes⟩

theorem holds_project {rules : RuleStore} {stored : Stored} (h : s.Holds m) {r : Rule}
    (hr : r.route.IsBlock) (hh : r.nextHop ≤ maxNextHop)
    (hadded : s.table.rules.Added r ⟨rules, .ok stored⟩) (outcome : AddOutcome) :
    ((s.setRules rules).project r stored outcome).value.state.Holds (m.afterAdd r.route r.nextHop
      ((s.setRules rules).project r stored outcome).value.answer) := by
  have haccount : ((s.setRules rules).project r stored outcome).value.state.plane.desk.Accounted :=
    (project_moves (s.setRules rules) hr stored outcome).keeps TableMove.accounted h.accounted
  have hwf := hadded.wellFormed h.wellFormed hr
  obtain ⟨hback, hundone⟩ := hadded.undo h.wellFormed hr
  rw [h.toMap] at hundone
  obtain ⟨s', hvalue, hrules, hrealizes⟩ | ⟨s', e, hvalue, hrules, hrealizes⟩ :=
    project_spec (s := s.setRules rules) h.realizes h.accounted hr hh stored outcome
  · rw [hvalue] at haccount ⊢
    refine ⟨hrules ▸ hwf, ?_, h.valid.update hr hh, hrealizes, haccount⟩
    rw [hrules, ← h.toMap]
    exact hadded.toMap h.wellFormed hr
  · rw [hvalue] at haccount ⊢
    exact ⟨hrules ▸ hback, hrules ▸ hundone, h.valid, hrealizes, haccount⟩

theorem holds_addRule (h : s.Holds m) {r : Rule} (hr : r.route.IsBlock)
    (hh : r.nextHop ≤ maxNextHop) : (s.addRule r).value.state.Holds
      (m.afterAdd r.route r.nextHop (s.addRule r).value.answer) := by
  have hadded := s.table.rules.added_add hr.depth
  unfold addRule
  rw [value_bind]
  generalize (s.table.rules.add r).value = out at hadded ⊢
  obtain ⟨rules, answer⟩ := out
  cases answer with
  | error e =>
    cases hadded
    exact h
  | ok stored =>
    cases stored with
    | inserted place => exact holds_project h hr hh hadded .inserted
    | updated place previous => exact holds_project h hr hh hadded .updated
    | unchanged =>
      have hmap := hadded.toMap h.wellFormed hr
      cases hadded
      rw [h.toMap] at hmap
      show s.Holds (Function.update m r.route (some r.nextHop))
      rw [← hmap]
      exact h

theorem holds_add (h : s.Holds m) (a : Address) (depth nextHop : Nat) :
    (s.add a depth nextHop).value.state.Holds
      (m.afterAdd (.of a depth) nextHop (s.add a depth nextHop).value.answer) := by
  unfold add
  split
  · exact h
  · next hd =>
    split
    · exact h
    · next hh =>
      exact holds_addRule h (Prefix.isBlock_of a (Decidable.not_not.mp hd)) (Nat.le_of_not_lt hh)

/-! ### Deleting -/

/-- The arrays follow the store, whatever becomes of the group. -/
theorem withdraw_spec (hm : s.table.arrays.Realizes m) (ha : s.plane.desk.Accounted)
    (hv : m.Valid) {q : Prefix} {hop : Nat} (hq : m q = some hop) (meanwhile : Meanwhile) :
    let out := (s.withdraw q (m.best q.base (q.depth - 1)) meanwhile).value
    out.state.table.rules = s.table.rules ∧
      out.state.table.arrays.Realizes (Function.update m q none) ∧ Released out.answer := by
  unfold withdraw
  split
  · next hd => exact ⟨rfl, Realizes.removeShallow hm ha hv hd hq, .inl rfl⟩
  · next hd =>
    exact ⟨rfl, Realizes.removeDeep hm ha hv (Nat.lt_of_not_le hd) hq meanwhile,
      released_removeDeep ..⟩

/-- The cover is sought among the rules that are left, which are the old ones below the prefix. -/
theorem cover?_of_erased {rules : RuleStore} {q : Prefix} (hq : q.IsBlock)
    (hmap : rules.toMap = Function.update m q none) :
    cover? rules q = m.best q.base (q.depth - 1) := by
  have hpos := hq.one_le
  rw [cover?_eq_best _ hq, hmap, RuleMap.best_update_of_lt _ _ _ (by omega)]

theorem holds_withdraw {rules : RuleStore} (h : s.Holds m) (hwf : rules.WellFormed) {q : Prefix}
    {hop : Nat} (hq : m q = some hop) (hmap : rules.toMap = Function.update m q none)
    (meanwhile : Meanwhile) :
    ((s.setRules rules).withdraw q (cover? rules q) meanwhile).value.state.Holds (m.afterDelete q
      ((s.setRules rules).withdraw q (cover? rules q) meanwhile).value.answer) := by
  have hblock := h.valid.isBlock hq
  have haccount : ((s.setRules rules).withdraw q (cover? rules q)
      meanwhile).value.state.plane.desk.Accounted :=
    (withdraw_moves (s.setRules rules) hblock _ meanwhile).keeps TableMove.accounted h.accounted
  rw [cover?_of_erased hblock hmap] at haccount ⊢
  obtain ⟨hrules, hrealizes, hanswer⟩ :=
    withdraw_spec (s := s.setRules rules) h.realizes h.accounted h.valid hq meanwhile
  have hafter : m.afterDelete q ((s.setRules rules).withdraw q (m.best q.base (q.depth - 1))
      meanwhile).value.answer = Function.update m q none := by
    rcases hanswer with hanswer | hanswer <;> rw [hanswer] <;> rfl
  rw [hafter]
  exact ⟨hrules ▸ hwf, hrules ▸ hmap, h.valid.erase q, hrealizes, haccount⟩

/-- What the store is without a rule that was found. -/
theorem Holds.toMap_remove (h : s.Holds m) {q : Prefix} (hq : q.IsBlock) {place : Nat}
    (hplace : s.table.rules.find? q = some place) :
    (s.table.rules.remove place q.depth).toMap = Function.update m q none := by
  obtain ⟨hmem, hrule⟩ := RuleStore.find?_eq_some hplace
  rw [h.wellFormed.toMap_remove hq.depth hmem, congrArg Rule.route hrule, h.toMap]

theorem holds_deleteAt (h : s.Holds m) {place : Nat} {q : Prefix} (hq : q.IsBlock)
    (hplace : s.table.rules.find? q = some place) (meanwhile : Meanwhile) :
    (s.deleteAt place q meanwhile).value.state.Holds
      (m.afterDelete q (s.deleteAt place q meanwhile).value.answer) := by
  have hmem := (RuleStore.find?_eq_some hplace).1
  have hmq : m q = some (s.table.rules.cell place).nextHop := by
    rw [← h.toMap, RuleStore.toMap_of_find? hq.depth, hplace, Option.map_some]
  exact holds_withdraw h (h.wellFormed.remove hq.depth hmem) hmq (h.toMap_remove hq hplace)
    meanwhile

theorem holds_delete (h : s.Holds m) (a : Address) (depth : Nat) (meanwhile : Meanwhile) :
    (s.delete a depth meanwhile).value.state.Holds
      (m.afterDelete (.of a depth) (s.delete a depth meanwhile).value.answer) := by
  unfold delete
  split
  · exact h
  · next hd =>
    split
    · exact h
    · next place hplace =>
      exact holds_deleteAt h (Prefix.isBlock_of a (Decidable.not_not.mp hd)) hplace meanwhile

theorem holds_deleteAll (h : s.Holds m) (meanwhile : Meanwhile) :
    (s.deleteAll meanwhile).value.Holds fun _ => none := by
  have haccount : (s.deleteAll meanwhile).value.plane.desk.Accounted :=
    (deleteAll_moves s meanwhile).keeps TableMove.accounted h.accounted
  have hbuckets : (s.deleteAll meanwhile).value.table.arrays.buckets =
      (s.table.arrays.apply (.buckets 0 bucketCount .invalid)).buckets :=
    buckets_reset (s.plane.setArrays _) meanwhile
  refine ⟨RuleStore.wellFormed_new _, RuleStore.toMap_new _, RuleMap.valid_empty,
    realizes_empty fun {i} hi => ?_, haccount⟩
  rw [entryAt_of_buckets hbuckets, entryAt_clear _ hi]

/-! ### The rest -/

theorem holds_reclaim (h : s.Holds m) : s.reclaim.value.state.Holds m :=
  h.of_sameReads rfl (sameReads_of_chain (reclaim_moves s.plane) h.accounted.orderly)
    (accounted_of_chain (reclaim_moves s.plane) h.accounted)

theorem holds_settle (h : s.Holds m) (meanwhile : Meanwhile) :
    (s.settle meanwhile).value.Holds m :=
  h.of_sameReads rfl (sameReads_of_chain (drain_moves s.plane meanwhile) h.accounted.orderly)
    (accounted_of_chain (drain_moves s.plane meanwhile) h.accounted)

theorem holds_bind (h : s.Holds m) (mode : ReclaimMode) : (s.bind mode).value.state.Holds m :=
  ⟨h.wellFormed, h.toMap, h.valid, h.realizes,
    (bind_moves s mode).keeps TableMove.accounted h.accounted⟩

/-- The rules of a table do not depend on its readers. -/
theorem Holds.retrack (h : s.Holds m) (tracker : Tracker) : Holds { s with tracker } m :=
  ⟨h.wellFormed, h.toMap, h.valid, h.realizes, h.accounted⟩

end Router

end Dir248
