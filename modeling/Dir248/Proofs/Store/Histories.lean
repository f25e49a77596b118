import Dir248.Proofs.Store.Additions
import Mathlib.Data.Finmap

/-!
# Histories of a rule store

A rule store is changed by additions, by changes of a rule that was looked for first (its
removal, another next hop), and by emptying it. Whatever the history, the store is a
finite map from prefixes to next hops: the flat array, the windows and the moves between
them show up in no answer.

* **`StoreCommand`**, **`RuleStore.perform`**, **`RuleStore.after`** — the changes of a store, and
  the store after a list of them.
* **`Entries`**, **`Entries.step`** — the finite map, and what a change makes of it.
* **`RuleStore.Models`** — a well-formed store with the look-ups of a map; **`Models.step`** — a
  change keeps it.
* **`AddsAs`**, **`Mirrors`** — what a store answers, told by the map alone.
* **`mirrors_after`** — a store answers like its map after every history.
-/

namespace Dir248

/-! ### Changes of a store -/

/-- A prefix that a rule may have: clipped to a valid depth. -/
abbrev Block := { p : Prefix // p.IsBlock }

/-- One change of a rule store. -/
inductive StoreCommand where
  /-- Adds a rule, or changes the next hop of the rule of that prefix. -/
  | add (p : Block) (nextHop : Nat)
  /-- Finds the rule of a prefix and removes it. -/
  | delete (p : Block)
  /-- Finds the rule of a prefix and changes its next hop. -/
  | restore (p : Block) (nextHop : Nat)
  /-- Removes every rule. -/
  | clear

namespace RuleStore

/-- The store after one change. A prefix that is not found changes nothing. -/
def perform (s : RuleStore) : StoreCommand → RuleStore
  | .add p nextHop => (s.add ⟨p, nextHop⟩).value.state
  | .delete p => (s.find? p).elim s fun place => s.remove place p.1.depth
  | .restore p nextHop => (s.find? p).elim s fun place => s.setNextHop place nextHop
  | .clear => s.clear

/-- The store after a list of changes. -/
def after (s : RuleStore) (cs : List StoreCommand) : RuleStore := cs.foldl perform s

end RuleStore

/-! ### The finite map -/

/-- Finitely many prefixes, each with a next hop. -/
abbrev Entries := Finmap fun _ : Prefix => Nat

namespace Entries

/-- The map after one change. A full map takes no new prefix. -/
def step (capacity : Nat) (m : Entries) : StoreCommand → Entries
  | .add p nextHop => if p.1 ∈ m ∨ m.keys.card < capacity then m.insert p nextHop else m
  | .delete p => m.erase p
  | .restore p nextHop => if p.1 ∈ m then m.insert p nextHop else m
  | .clear => ∅

theorem lookup_insert_eq_update (m : Entries) (p : Prefix) (hop : Nat) :
    (fun q => (m.insert p hop).lookup q) = Function.update (fun q => m.lookup q) p (some hop) := by
  funext q
  rcases eq_or_ne q p with rfl | hne
  · rw [Finmap.lookup_insert, Function.update_self]
  · rw [Finmap.lookup_insert_of_ne _ hne, Function.update_of_ne hne]

theorem lookup_erase_eq_update (m : Entries) (p : Prefix) :
    (fun q => (m.erase p).lookup q) = Function.update (fun q => m.lookup q) p none := by
  funext q
  rcases eq_or_ne q p with rfl | hne
  · rw [Finmap.lookup_erase, Function.update_self]
  · rw [Finmap.lookup_erase_ne hne, Function.update_of_ne hne]

end Entries

namespace RuleStore

/-! ### A store and its map -/

/-- The store is well formed, and its rules are the entries of the map. -/
structure Models (s : RuleStore) (m : Entries) : Prop where
  wellFormed : s.WellFormed
  lookup : (fun p => m.lookup p) = s.toMap

theorem models_new (capacity : Nat) : (new capacity).Models ∅ := by
  refine ⟨wellFormed_new capacity, ?_⟩
  rw [toMap_new]
  funext p
  exact Finmap.lookup_empty p

/-- No prefix is listed twice. -/
theorem WellFormed.nodup_routes {s : RuleStore} (h : s.WellFormed) :
    (s.toList.map Rule.route).Nodup := by
  refine List.Nodup.map_on (fun q hq r hr hroute => ?_) h.nodup_toList
  have hhop : q.nextHop = r.nextHop := by
    have hmap := h.toMap_of_mem hq
    rw [hroute, h.toMap_of_mem hr] at hmap
    exact (Option.some.inj hmap).symm
  cases q
  cases r
  cases hroute
  cases hhop
  rfl

theorem length_toList (s : RuleStore) : s.toList.length = s.size := by
  simp only [toList, size, List.length_flatMap, length_rulesAt]

/-- The rules are listed in the order of their depths. -/
theorem sorted_toList (s : RuleStore) :
    s.toList.Pairwise fun q r => q.route.depth ≤ r.route.depth := by
  rw [toList, List.pairwise_flatMap]
  constructor
  · intro d _
    refine List.Pairwise.imp_of_mem (fun {q r} hq hr _ => ?_)
      (List.pairwise_of_forall fun _ _ => trivial)
    rw [depth_of_mem_rulesAt hq, depth_of_mem_rulesAt hr]
  · refine (List.pairwise_lt_range' (s := 1) (n := 32)).imp fun {d e} hde q hq r hr => ?_
    rw [depth_of_mem_rulesAt hq, depth_of_mem_rulesAt hr]
    exact Nat.le_of_lt hde

section Models

variable {s : RuleStore} {m : Entries}

theorem Models.lookup_eq (h : s.Models m) (p : Prefix) : m.lookup p = s.toMap p :=
  congrFun h.lookup p

theorem Models.mem_iff (h : s.Models m) (p : Prefix) : p ∈ m ↔ s.toMap p ≠ none := by
  rw [← h.lookup_eq, ne_eq, Finmap.lookup_eq_none, not_not]

theorem Models.mem_toList (h : s.Models m) (r : Rule) :
    r ∈ s.toList ↔ m.lookup r.route = some r.nextHop := by
  rw [h.lookup_eq]
  exact (h.wellFormed.toMap_eq_some_iff r.route r.nextHop).symm

/-- The store holds as many rules as the map has entries. -/
theorem Models.size (h : s.Models m) : s.size = m.keys.card := by
  have hkeys : m.keys = (s.toList.map Rule.route).toFinset := by
    ext p
    rw [Finmap.mem_keys, Finmap.mem_iff, List.mem_toFinset, List.mem_map]
    constructor
    · intro h'
      obtain ⟨hop, hp⟩ := h'
      exact ⟨⟨p, hop⟩, (h.mem_toList _).mpr hp, rfl⟩
    · intro h'
      obtain ⟨r, hr, rfl⟩ := h'
      exact ⟨r.nextHop, (h.mem_toList r).mp hr⟩
  rw [hkeys, List.toFinset_card_of_nodup h.wellFormed.nodup_routes, List.length_map,
    length_toList]

/-- The place of a prefix holds the entry of the map, and nothing else is found. -/
theorem Models.map_find? (h : s.Models m) (p : Block) :
    (s.find? p.1).map s.cell = (m.lookup p.1).map (Cell.mk p.1.base) := by
  rw [h.lookup_eq, toMap_of_find? p.2.depth]
  cases hfind : s.find? p.1 with
  | none => rfl
  | some place =>
    have hroute := congrArg (fun r => r.route.base) (find?_eq_some hfind).2
    exact congrArg some (congrArg (Cell.mk · (s.cell place).nextHop) hroute)

/-! ### One change -/

theorem Models.add (h : s.Models m) (p : Block) (hop : Nat) :
    (s.perform (.add p hop)).Models (m.step s.capacity (.add p hop)) := by
  have hadded := added_add s (r := ⟨p.1, hop⟩) p.2.depth
  refine ⟨hadded.wellFormed h.wellFormed p.2, ?_⟩
  -- a store that takes the rule has it in its map, and so has the map
  have htaken : ∀ {s' : RuleStore} {stored : Stored}, Added s ⟨p.1, hop⟩ ⟨s', .ok stored⟩ →
      (fun q => (m.insert p.1 hop).lookup q) = s'.toMap := by
    intro s' stored ha
    rw [Entries.lookup_insert_eq_update, h.lookup]
    exact (ha.toMap h.wellFormed p.2).symm
  show (fun q => (m.step s.capacity (.add p hop)).lookup q) =
    (s.add ⟨p.1, hop⟩).value.state.toMap
  generalize (s.add ⟨p.1, hop⟩).value = out at hadded ⊢
  have ha := hadded
  cases hadded with
  | known hmap =>
    rw [Entries.step, if_pos (.inl ((h.mem_iff _).mpr (by rw [hmap]; nofun)))]
    exact htaken ha
  | changed _ _ hmap =>
    rw [Entries.step, if_pos (.inl ((h.mem_iff _).mpr (by rw [hmap]; nofun)))]
    exact htaken ha
  | full hmap hfull =>
    rw [h.size] at hfull
    rw [Entries.step, if_neg, h.lookup]
    rintro (hmem | hlt)
    · exact (h.mem_iff _).mp hmem hmap
    · exact Nat.not_le_of_lt hlt hfull
  | fresh _ _ hroom =>
    rw [h.size] at hroom
    rw [Entries.step, if_pos (.inr hroom)]
    exact htaken ha

theorem Models.delete (h : s.Models m) (p : Block) :
    (s.perform (.delete p)).Models (m.step s.capacity (.delete p)) := by
  show ((s.find? p.1).elim s fun place => s.remove place p.1.depth).Models (m.erase p.1)
  cases hfind : s.find? p.1 with
  | none =>
    have hnone : s.toMap p.1 = none := by rw [toMap_of_find? p.2.depth, hfind, Option.map_none]
    rw [Option.elim_none]
    refine ⟨h.wellFormed, ?_⟩
    rw [Entries.lookup_erase_eq_update, h.lookup, ← hnone, Function.update_eq_self]
  | some place =>
    obtain ⟨hplace, hrule⟩ := find?_eq_some hfind
    rw [Option.elim_some]
    refine ⟨h.wellFormed.remove p.2.depth hplace, ?_⟩
    rw [Entries.lookup_erase_eq_update, h.lookup, h.wellFormed.toMap_remove p.2.depth hplace,
      hrule]

theorem Models.restore (h : s.Models m) (p : Block) (hop : Nat) :
    (s.perform (.restore p hop)).Models (m.step s.capacity (.restore p hop)) := by
  show ((s.find? p.1).elim s fun place => s.setNextHop place hop).Models
    (if p.1 ∈ m then m.insert p.1 hop else m)
  have hmem := h.mem_iff p.1
  rw [toMap_of_find? p.2.depth] at hmem
  cases hfind : s.find? p.1 with
  | none =>
    rw [hfind, Option.map_none] at hmem
    rw [if_neg fun hin => hmem.mp hin rfl]
    exact h
  | some place =>
    rw [hfind, Option.map_some] at hmem
    obtain ⟨hplace, hrule⟩ := find?_eq_some hfind
    rw [Option.elim_some, if_pos (hmem.mpr nofun)]
    refine ⟨h.wellFormed.setNextHop p.2.depth hplace hop, ?_⟩
    rw [Entries.lookup_insert_eq_update, h.lookup,
      h.wellFormed.toMap_setNextHop p.2.depth hplace, hrule]

/-- A store follows its map through one change. -/
theorem Models.step (h : s.Models m) (c : StoreCommand) :
    (s.perform c).Models (m.step s.capacity c) := by
  cases c with
  | add p hop => exact h.add p hop
  | delete p => exact h.delete p
  | restore p hop => exact h.restore p hop
  | clear => exact models_new s.capacity

@[simp] theorem capacity_perform (s : RuleStore) (c : StoreCommand) :
    (s.perform c).capacity = s.capacity := by
  cases c with
  | add p hop => exact (added_add s (r := ⟨p.1, hop⟩) p.2.depth).capacity
  | delete p =>
    show ((s.find? p.1).elim s fun place => s.remove place p.1.depth).capacity = s.capacity
    cases s.find? p.1 <;> simp
  | restore p hop =>
    show ((s.find? p.1).elim s fun place => s.setNextHop place hop).capacity = s.capacity
    cases s.find? p.1 <;> simp
  | clear => exact capacity_clear s

@[simp] theorem capacity_after (s : RuleStore) (cs : List StoreCommand) :
    (s.after cs).capacity = s.capacity := by
  induction cs generalizing s with
  | nil => rfl
  | cons c cs ih => exact (ih (s.perform c)).trans (capacity_perform s c)

/-- A store follows its map through every list of changes. -/
theorem Models.after (h : s.Models m) (cs : List StoreCommand) :
    (s.after cs).Models (cs.foldl (Entries.step s.capacity) m) := by
  induction cs generalizing s m with
  | nil => exact h
  | cons c cs ih =>
    have hstep := ih (h.step c)
    rw [capacity_perform] at hstep
    exact hstep

/-! ### What a store answers -/

/-- An addition to the store ends as the map says. -/
structure AddsAs (s : RuleStore) (capacity : Nat) (m : Entries) (r : Rule)
    (out : Outcome RuleStore (Except Failure Stored)) : Prop where
  /-- The very rule is there. -/
  unchanged : out.answer = .ok .unchanged ↔ m.lookup r.route = some r.nextHop
  /-- The rule is there with another next hop; the answer names its place and that next hop. -/
  updated : ∀ place previous, out.answer = .ok (.updated place previous) ↔
    s.find? r.route = some place ∧ m.lookup r.route = some previous ∧ previous ≠ r.nextHop
  /-- The rule is not there and the map is full. -/
  full : ∀ e, out.answer = .error e ↔
    e = .outOfSpace ∧ m.lookup r.route = none ∧ m.keys.card = capacity
  /-- A refused rule leaves the store as it was. -/
  refused : ∀ e, out.answer = .error e → out.state = s
  /-- In all other cases the rule is stored. -/
  inserted : (∃ place, out.answer = .ok (.inserted place)) ↔
    m.lookup r.route = none ∧ m.keys.card ≠ capacity
  /-- The place that the answer names holds the new rule. -/
  stored : ∀ place, out.answer = .ok (.inserted place) →
    out.state.cell place = ⟨r.route.base, r.nextHop⟩

/-- The store answers every question as the map does. -/
structure Mirrors (s : RuleStore) (capacity : Nat) (m : Entries) : Prop where
  /-- A prefix is found when it is in the map, at a place that holds its entry. -/
  found : ∀ p : Block, (s.find? p.1).map s.cell = (m.lookup p.1).map (Cell.mk p.1.base)
  adds : ∀ (p : Block) hop, s.AddsAs capacity m ⟨p.1, hop⟩ (s.add ⟨p.1, hop⟩).value
  size : s.size = m.keys.card
  /-- The rules are the entries of the map ... -/
  listed : ∀ r, r ∈ s.toList ↔ m.lookup r.route = some r.nextHop
  /-- ... each once ... -/
  once : s.toList.Nodup
  /-- ... in the order of their depths. -/
  sorted : s.toList.Pairwise fun q r => q.route.depth ≤ r.route.depth
  /-- No addition and no removal of a rule that was found leaves the array. -/
  addFaults : ∀ (p : Block) hop, (s.add ⟨p.1, hop⟩).faults = []
  removable : ∀ (p : Block) place, s.find? p.1 = some place → s.canRemove place p.1.depth = true

/-- The place of a rule of the store is the one that is found. -/
theorem Models.find?_of_route (h : s.Models m) {p : Block} {place : Nat}
    (hplace : place ∈ (s.window p.1.depth).places)
    (hroute : (s.ruleAt p.1.depth place).route = p.1) : s.find? p.1 = some place := by
  cases hfind : s.find? p.1 with
  | none => exact absurd hroute (find?_eq_none hfind (List.mem_map_of_mem hplace))
  | some i =>
    obtain ⟨hi, hrule⟩ := find?_eq_some hfind
    have hsame : (s.ruleAt p.1.depth i).route = (s.ruleAt p.1.depth place).route := by
      rw [hroute, hrule]
    rw [h.wellFormed.place_unique p.2.depth hi hplace hsame]

theorem Models.addsAs (h : s.Models m) (p : Block) (hop : Nat) :
    s.AddsAs s.capacity m ⟨p.1, hop⟩ (s.add ⟨p.1, hop⟩).value := by
  have hfits : m.keys.card ≤ s.capacity := h.size ▸ h.wellFormed.packed.fits
  have hadded := added_add s (r := ⟨p.1, hop⟩) p.2.depth
  generalize (s.add ⟨p.1, hop⟩).value = out at hadded ⊢
  cases hadded with
  | known hmap =>
    rw [← h.lookup_eq] at hmap
    constructor <;> simp [hmap]
  | @changed place previous hplace hroute hmap hne =>
    rw [← h.lookup_eq] at hmap
    have hfind := h.find?_of_route hplace hroute
    replace hne : previous ≠ hop := hne
    constructor <;> simp [hmap, hfind, hne]
  | full hmap hfull =>
    rw [← h.lookup_eq] at hmap
    rw [h.size] at hfull
    have heq : m.keys.card = s.capacity := Nat.le_antisymm hfits hfull
    constructor <;> simp [hmap, heq, eq_comm]
  | fresh hmap _ hroom =>
    have hcell := cell_insert_place s ⟨p.1, hop⟩ (h.wellFormed.packed.placeFor_lt p.2.depth hroom)
    rw [← h.lookup_eq] at hmap
    rw [h.size] at hroom
    constructor <;> simp [hmap, Nat.ne_of_lt hroom, hcell]

theorem Models.mirrors (h : s.Models m) : s.Mirrors s.capacity m where
  found := h.map_find?
  adds := h.addsAs
  size := h.size
  listed := h.mem_toList
  once := h.wellFormed.nodup_toList
  sorted := sorted_toList s
  addFaults p _ := h.wellFormed.packed.faults_add p.2.depth
  removable p _ hfind := h.wellFormed.packed.canRemove p.2.depth (find?_eq_some hfind).1

end Models

/-- After every history a store answers like the map of that history. -/
theorem mirrors_after (capacity : Nat) (cs : List StoreCommand) :
    ((new capacity).after cs).Mirrors capacity (cs.foldl (Entries.step capacity) ∅) := by
  have hmirrors := ((models_new capacity).after cs).mirrors
  rwa [capacity_after, capacity_new] at hmirrors

end RuleStore

end Dir248
