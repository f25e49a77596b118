import Dir248.Proofs.Table.Operations

/-!
# What stands in every history

No operation changes the name of a table, its sizing or the room of its rule store, and all
that an operation does to the pool it does through a few operations of the pool. A property of
pools that these keep is kept by every turn that binds no scheme, however the turn ends.

* **`Pool.Lasting`** — a property of pools that the operations of the pool keep.
* **`Pool.Lasting.insertDeep`**, **`Pool.Lasting.removeDeep`** — rules in the arrays keep it.
* **`Router.Stands`** — the name, the sizing, the room, and such a property.
* **`Router.Stands.take`** — what every turn keeps.
-/

namespace Dir248

open Traced

/-! ### Properties of pools -/

/-- A property of pools that the operations of the pool keep. -/
structure Pool.Lasting (P : Pool → Prop) : Prop where
  allocate : ∀ {p : Plane}, P p.pool → P p.allocate.value.state.pool
  release : ∀ {p : Plane}, P p.pool → ∀ (g : Nat) (meanwhile : Meanwhile),
    P (p.release g meanwhile).value.state.pool
  reclaim : ∀ {p : Plane}, P p.pool → P p.reclaim.value.state.pool
  drain : ∀ {p : Plane}, P p.pool → ∀ meanwhile : Meanwhile,
    P (p.drain meanwhile).value.state.pool
  reset : ∀ {p : Plane}, P p.pool → ∀ meanwhile : Meanwhile, P (p.reset meanwhile).value.pool

section Lasting

open Plane Arrays

variable {P : Pool → Prop} {p : Plane}

theorem Plane.pool_linkGroup (p : Plane) (g : Nat) (current : Entry) (r : Rule) :
    (p.linkGroup g current r).value.pool = p.pool := by
  cases current <;> rfl

/-- A rule that comes does to the pool what an allocation does, or nothing. -/
theorem Pool.Lasting.insertDeep (hP : Pool.Lasting P) (h : P p.pool) (r : Rule) :
    P (p.insertDeep r).value.state.pool := by
  by_cases hgroup : p.arrays.Deep (bucket r.route.base)
  · obtain ⟨g, hg⟩ := hgroup
    rw [insertDeep_of_group hg]
    exact h
  · have hallocated := hP.allocate h
    rw [insertDeep_of_not_group (not_exists.mp hgroup)]
    generalize p.allocate.value = out at hallocated ⊢
    obtain ⟨s, answer⟩ := out
    cases answer with
    | error e => exact hallocated
    | ok g =>
      show P (s.linkGroup g _ r).value.pool
      rwa [pool_linkGroup]

/-- A rule that goes does to the pool what a release does, or nothing. -/
theorem Pool.Lasting.removeDeep (hP : Pool.Lasting P) (h : P p.pool) (route : Prefix)
    (cover : Option Route) (meanwhile : Meanwhile) :
    P (p.removeDeep route cover meanwhile).value.state.pool := by
  by_cases hgroup : p.arrays.Deep (bucket route.base)
  · obtain ⟨g, hg⟩ := hgroup
    cases hfold : foldedEntry ((swept p.arrays route cover g).verdict g) with
    | none =>
      rw [removeDeep_keep hg meanwhile hfold]
      exact h
    | some left =>
      have hunlinked : P (p.setArrays ((swept p.arrays route cover g).apply
          (.buckets (bucket route.base) 1 left))).pool := h
      rw [removeDeep_fold hg meanwhile hfold]
      exact hP.release hunlinked g meanwhile
  · unfold Plane.removeDeep
    split
    · next g hg => exact absurd ⟨g, hg⟩ hgroup
    · exact h

end Lasting

namespace Router

open Plane

/-! ### What every operation keeps -/

/-- The table has its name and its sizing, its rule store has the room it was given, and its
pool has a property. -/
structure Stands (s : Router) (P : Pool → Prop) (name : String) (config : Config) : Prop where
  named : s.table.name = name
  sized : s.table.config = config
  capacity : s.table.rules.capacity = config.maxRules
  pool : P s.table.pool

variable {s : Router} {P : Pool → Prop} {name : String} {config : Config}

theorem stands_fresh (name : String) (config : Config) (maxReaders : Nat) (hP : P {}) :
    (fresh name config maxReaders).Stands P name config :=
  ⟨rfl, rfl, RuleStore.capacity_new _, hP⟩

theorem Stands.setPlane (h : s.Stands P name config) {p : Plane} (hp : P p.pool) :
    (s.setPlane p).Stands P name config := ⟨h.named, h.sized, h.capacity, hp⟩

theorem Stands.setRules (h : s.Stands P name config) {rules : RuleStore}
    (hr : rules.capacity = s.table.rules.capacity) : (s.setRules rules).Stands P name config :=
  ⟨h.named, h.sized, hr.trans h.capacity, h.pool⟩

theorem capacity_undo (rules : RuleStore) (depth : Nat) (stored : Stored) :
    (undo rules depth stored).value.capacity = rules.capacity := by
  cases stored with
  | inserted place => exact RuleStore.capacity_remove ..
  | updated place previous => exact RuleStore.capacity_setNextHop ..
  | unchanged => rfl

theorem Stands.project (hP : Pool.Lasting P) (h : s.Stands P name config) (r : Rule)
    (stored : Stored) (outcome : AddOutcome) :
    (s.project r stored outcome).value.state.Stands P name config := by
  unfold Router.project
  split
  · rw [value_bind, value_added]
    exact h.setPlane h.pool
  · have hpool : P (s.plane.insertDeep r).value.state.pool := hP.insertDeep h.pool r
    rw [value_bind]
    generalize (s.plane.insertDeep r).value = out at hpool ⊢
    obtain ⟨p, answer⟩ := out
    cases answer with
    | ok u =>
      show ((s.setPlane p).added r outcome).value.state.Stands P name config
      rw [value_added]
      exact h.setPlane hpool
    | error e => exact (h.setPlane hpool).setRules (capacity_undo ..)

theorem Stands.addRule (hP : Pool.Lasting P) (h : s.Stands P name config) {r : Rule}
    (hr : ValidDepth r.route.depth) : (s.addRule r).value.state.Stands P name config := by
  have hcapacity := (s.table.rules.added_add hr).capacity
  unfold Router.addRule
  rw [value_bind]
  generalize (s.table.rules.add r).value = out at hcapacity ⊢
  obtain ⟨rules, answer⟩ := out
  have hset : (s.setRules rules).Stands P name config := h.setRules hcapacity
  cases answer with
  | error e => exact hset
  | ok stored =>
    cases stored with
    | unchanged => exact hset
    | inserted place => exact hset.project hP r _ _
    | updated place previous => exact hset.project hP r _ _

theorem Stands.add (hP : Pool.Lasting P) (h : s.Stands P name config) (a : Address)
    (depth nextHop : Nat) : (s.add a depth nextHop).value.state.Stands P name config := by
  unfold Router.add
  split
  · exact h
  · next hd =>
    split
    · exact h
    · exact h.addRule hP (Decidable.not_not.mp hd)

theorem Stands.withdraw (hP : Pool.Lasting P) (h : s.Stands P name config) (route : Prefix)
    (cover : Option Route) (meanwhile : Meanwhile) :
    (s.withdraw route cover meanwhile).value.state.Stands P name config := by
  unfold Router.withdraw
  split
  · exact h.setPlane h.pool
  · exact h.setPlane (hP.removeDeep (p := s.plane) h.pool route cover meanwhile)

theorem Stands.delete (hP : Pool.Lasting P) (h : s.Stands P name config) (a : Address)
    (depth : Nat) (meanwhile : Meanwhile) :
    (s.delete a depth meanwhile).value.state.Stands P name config := by
  unfold Router.delete
  split
  · exact h
  · split
    · exact h
    · exact (h.setRules (RuleStore.capacity_remove ..)).withdraw hP _ _ meanwhile

theorem Stands.deleteAll (hP : Pool.Lasting P) (h : s.Stands P name config)
    (meanwhile : Meanwhile) : (s.deleteAll meanwhile).value.Stands P name config := by
  refine (h.setRules (RuleStore.capacity_clear _)).setPlane ?_
  exact hP.reset (p := s.plane.setArrays _) h.pool meanwhile

/-- To bind a scheme changes the pool alone. -/
theorem Stands.bind {P' : Pool → Prop} (h : s.Stands P name config) {mode : ReclaimMode}
    (hp : P' (s.table.pool.bind mode config.groups).value.state) :
    (s.bind mode).value.state.Stands P' name config := by
  rw [← h.sized] at hp
  exact ⟨h.named, h.sized, h.capacity, hp⟩

/-- Every turn keeps what stands, if binding does. -/
theorem Stands.take (hP : Pool.Lasting P) (h : s.Stands P name config) (turn : Turn)
    (hbind : ∀ mode meanwhile, turn = .write (.bind mode) meanwhile →
      P (s.table.pool.bind mode config.groups).value.state) :
    (s.take turn).value.state.Stands P name config := by
  cases turn with
  | write c meanwhile =>
    cases c with
    | add a depth nextHop => exact h.add hP a depth nextHop
    | delete a depth => exact h.delete hP a depth meanwhile
    | deleteAll => exact h.deleteAll hP meanwhile
    | reclaim => exact h.setPlane (hP.reclaim (p := s.plane) h.pool)
    | bind mode => exact h.bind (hbind mode meanwhile rfl)
    | settle => exact h.setPlane (hP.drain (p := s.plane) h.pool meanwhile)
  | read step => exact ⟨h.named, h.sized, h.capacity, h.pool⟩
  | grace => exact ⟨h.named, h.sized, h.capacity, h.pool⟩

end Router

end Dir248
