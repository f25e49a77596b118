import Dir248.Proofs.Store.Covers
import Mathlib.Data.List.Find

/-!
# What a store leaves lying around

A removal leaves the rule it moved behind the last one, and a window that was emptied keeps the
start it had. Neither is ever looked at: two stores of one capacity that hold the same rules in
the same windows answer every request alike, whatever lies in their other places and wherever
their empty windows claim to begin. The leftovers of the two drift apart as requests come in, so
that what is carried along is the likeness of the rules and not of the stores.

* **`RuleStore.Twins`** — two packed stores that hold the same rules.
* **`Twins.placeFor`**, **`Twins.insert`**, **`Twins.remove`**, **`Twins.setNextHop`** — twins put a
  rule at the same place, and every change leaves them twins.
* **`StoreRequest`**, **`RuleStore.respond`**, **`RuleStore.converse`** — requests and their
  replies.
* **`Twins.respond`** — twins give the same reply and are twins again.
* **`leftovers_unseen`** — the same for every list of requests.
-/

namespace Dir248

namespace RuleStore

/-! ### Twins -/

/-- Two packed stores of one capacity with the same rules in every window. Their other places
and the starts of their empty windows may differ. -/
structure Twins (s s' : RuleStore) : Prop where
  packed : s.Packed
  packed' : s'.Packed
  capacity : s.capacity = s'.capacity
  used : ∀ {d}, ValidDepth d → (s.window d).used = (s'.window d).used
  rules : ∀ {d}, ValidDepth d → 0 < (s.window d).used → s.rulesAt d = s'.rulesAt d

instance (s : RuleStore) : Decidable s.Packed :=
  decidable_of_iff ((∀ d ∈ depths, 0 < (s.window d).used → (s.window d).first = s.filled d) ∧
      s.size ≤ s.capacity)
    ⟨fun h => ⟨fun {d} hd => h.1 d ((mem_depths d).mpr hd), h.2⟩,
      fun h => ⟨fun d hd => h.first ((mem_depths d).mp hd), h.fits⟩⟩

instance (s s' : RuleStore) : Decidable (s.Twins s') :=
  decidable_of_iff (s.Packed ∧ s'.Packed ∧ s.capacity = s'.capacity ∧
      ∀ d ∈ depths, (s.window d).used = (s'.window d).used ∧
        (0 < (s.window d).used → s.rulesAt d = s'.rulesAt d))
    ⟨fun ⟨h, h', hcapacity, hwindows⟩ => ⟨h, h', hcapacity,
        fun {d} hd => (hwindows d ((mem_depths d).mpr hd)).1,
        fun {d} hd => (hwindows d ((mem_depths d).mpr hd)).2⟩,
      fun h => ⟨h.packed, h.packed', h.capacity, fun d hd =>
        ⟨h.used ((mem_depths d).mp hd), h.rules ((mem_depths d).mp hd)⟩⟩⟩

namespace Twins

variable {s s' : RuleStore} (h : s.Twins s')

include h

/-! ### What twins have in common -/

theorem filled {d : Nat} (hd : d ≤ 33) : s.filled d = s'.filled d := by
  refine congrArg List.sum (List.map_congr_left fun e he => h.used ?_)
  obtain ⟨hlow, hhigh⟩ := List.mem_range'_1.mp he
  have hle : e ≤ 32 := by omega
  exact ⟨hlow, hle⟩

theorem size : s.size = s'.size := by
  rw [size_eq_filled, size_eq_filled, h.filled (Nat.le_refl 33)]

theorem rulesAt {d : Nat} (hd : ValidDepth d) : s.rulesAt d = s'.rulesAt d := by
  rcases Nat.eq_zero_or_pos (s.window d).used with hu | hu
  · rw [rulesAt_of_used_eq_zero hu, rulesAt_of_used_eq_zero ((h.used hd).symm.trans hu)]
  · exact h.rules hd hu

theorem toList : s.toList = s'.toList :=
  List.flatMap_congr fun d hd => h.rulesAt ((mem_depths d).mp hd)

/-- A window that holds rules is the same window in both stores. -/
theorem window {d : Nat} (hd : ValidDepth d) (hu : 0 < (s.window d).used) :
    s.window d = s'.window d := by
  have hle : d ≤ 33 := Nat.le_succ_of_le hd.2
  have hused := h.used hd
  have hfirst := h.packed.first hd hu
  have hfirst' := h.packed'.first hd (hused ▸ hu)
  rw [h.filled hle, ← hfirst'] at hfirst
  exact congrArg₂ Window.mk hused hfirst

theorem places {d : Nat} (hd : ValidDepth d) : (s.window d).places = (s'.window d).places := by
  rcases Nat.eq_zero_or_pos (s.window d).used with hu | hu
  · rw [Window.places, Window.places, ← h.used hd, hu]
    rfl
  · rw [h.window hd hu]

theorem ruleAt {d i : Nat} (hd : ValidDepth d) (hi : i ∈ (s.window d).places) :
    s.ruleAt d i = s'.ruleAt d i := by
  have hrules := h.rulesAt hd
  rw [rulesAt_eq_map, rulesAt_eq_map, ← h.places hd] at hrules
  exact List.map_inj_left.mp hrules i hi

/-- A place in use has the same content in both stores. -/
theorem cell {d i : Nat} (hd : ValidDepth d) (hi : i ∈ (s.window d).places) :
    s.cell i = s'.cell i := by
  have hrule := h.ruleAt hd hi
  exact congrArg₂ Cell.mk (congrArg (fun r => r.route.base) hrule) (congrArg Rule.nextHop hrule)

theorem find? {p : Prefix} (hp : ValidDepth p.depth) : s.find? p = s'.find? p := by
  unfold RuleStore.find?
  rw [← h.places hp]
  refine List.find?_congr fun i hi => ?_
  rw [h.cell hp hi]

theorem covering? (a : Address) {depth : Nat} (hdepth : ValidDepth depth) :
    s.covering? a depth = s'.covering? a depth :=
  covering?_of_find? fun d hlow hlt => h.find? (p := .of a d) (valid_of_lt hdepth hlow hlt)

/-- The place of a new rule depends on the rules alone. -/
theorem placeFor {d : Nat} (hd : ValidDepth d) : s.placeFor d = s'.placeFor d := by
  have hle : d ≤ 33 := Nat.le_succ_of_le hd.2
  rw [h.packed.placeFor_eq hd, h.packed'.placeFor_eq hd, h.filled hle, h.used hd]

/-! ### Changes of twins -/

theorem insert {r : Rule} (hr : ValidDepth r.route.depth) (hroom : s.size < s.capacity) :
    (s.insert r).Twins (s'.insert r) := by
  have hroom' : s'.size < s'.capacity := h.size ▸ h.capacity ▸ hroom
  refine ⟨h.packed.insert hr hroom, h.packed'.insert hr hroom', ?_, fun {d} hd => ?_,
    fun {d} hd _ => ?_⟩
  · rw [capacity_insert, capacity_insert, h.capacity]
  · rw [used_insert s r hd, used_insert s' r hd, h.used hd]
  · have hrules := h.rulesAt hd
    rcases Nat.lt_trichotomy d r.route.depth with hlt | rfl | hgt
    · rw [h.packed.rulesAt_insert_of_lt hr hd hlt, h.packed'.rulesAt_insert_of_lt hr hd hlt, hrules]
    · rw [h.packed.rulesAt_insert_self hr hroom, h.packed'.rulesAt_insert_self hr hroom', hrules]
    · rw [h.packed.rulesAt_insert_of_gt hr hroom hd hgt,
        h.packed'.rulesAt_insert_of_gt hr hroom' hd hgt, hrules]

theorem remove {depth place : Nat} (hdepth : ValidDepth depth)
    (hplace : place ∈ (s.window depth).places) :
    (s.remove place depth).Twins (s'.remove place depth) := by
  have hu := used_pos_of_mem hplace
  have hwindow := h.window hdepth hu
  have hplace' : place ∈ (s'.window depth).places := hwindow ▸ hplace
  refine ⟨h.packed.remove place hdepth hu, h.packed'.remove place hdepth (hwindow ▸ hu), ?_,
    fun {d} hd => ?_, fun {d} hd _ => ?_⟩
  · rw [capacity_remove, capacity_remove, h.capacity]
  · rw [used_remove s place depth hd, used_remove s' place depth hd, h.used hd]
  · have hrules := h.rulesAt hd
    rcases Nat.lt_trichotomy d depth with hlt | rfl | hgt
    · rw [h.packed.rulesAt_remove_of_lt hdepth hplace hd hlt,
        h.packed'.rulesAt_remove_of_lt hdepth hplace' hd hlt, hrules]
    · -- the last rule of the window, which takes the free place, is the same rule in both
      have hlast : (s.window d).stop - 1 ∈ (s.window d).places := by
        rw [Window.mem_places, Window.stop]
        omega
      rw [h.packed.rulesAt_remove_self hdepth hplace, h.packed'.rulesAt_remove_self hdepth hplace',
        hrules, h.ruleAt hdepth hlast, hwindow]
    · rw [h.packed.rulesAt_remove_of_gt hdepth hplace hd hgt,
        h.packed'.rulesAt_remove_of_gt hdepth hplace' hd hgt, hrules]

theorem setNextHop {depth place : Nat} (hdepth : ValidDepth depth)
    (hplace : place ∈ (s.window depth).places) (nextHop : Nat) :
    (s.setNextHop place nextHop).Twins (s'.setNextHop place nextHop) := by
  have hin := h.packed.place_lt hdepth hplace
  refine ⟨h.packed.setNextHop place nextHop, h.packed'.setNextHop place nextHop, ?_,
    fun {d} hd => h.used hd, fun {d} hd _ => ?_⟩
  · rw [capacity_setNextHop, capacity_setNextHop, h.capacity]
  · rw [rulesAt_setNextHop s hin, rulesAt_setNextHop s' (h.capacity ▸ hin), ← h.places hd]
    refine List.map_congr_left fun i hi => ?_
    rw [h.ruleAt hd hi]

end Twins

theorem twins_new (capacity : Nat) : (new capacity).Twins (new capacity) :=
  ⟨packed_new capacity, packed_new capacity, rfl, fun _ => rfl, fun _ _ => rfl⟩

/-! ### Requests -/

/-- A request to a rule store. -/
inductive StoreRequest where
  /-- Adds a rule, or changes the next hop of the rule of that prefix. -/
  | add (p : ValidPrefix) (nextHop : Nat)
  /-- Finds the rule of a prefix and removes it. -/
  | delete (p : ValidPrefix)
  /-- Finds the rule of a prefix and replaces its next hop. -/
  | restore (p : ValidPrefix) (nextHop : Nat)
  /-- Asks for the rule of a prefix. -/
  | find (p : ValidPrefix)
  /-- Asks for the deepest rule around an address that is shallower than a depth. -/
  | cover (a : Address) (depth : { d : Nat // ValidDepth d })
  /-- Asks for the number of rules. -/
  | count
  /-- Asks for all rules. -/
  | list
  /-- Removes every rule. -/
  | clear

/-- The reply to a request. A place that was found comes with its content. -/
inductive StoreReply where
  | added (answer : Except Failure Stored)
  | deleted (place : Option Nat)
  | restored (place : Option Nat)
  | found (rule : Option (Nat × Cell))
  | covered (rule : Option (Nat × Nat × Cell))
  | counted (rules : Nat)
  | listed (rules : List Rule)
  | cleared

/-- Responds to a request. A prefix that is not found changes nothing. -/
def respond (s : RuleStore) : StoreRequest → Traced (Outcome RuleStore StoreReply)
  | .add p nextHop => do
    let out ← s.add ⟨p, nextHop⟩
    pure ⟨out.state, .added out.answer⟩
  | .delete p =>
    match s.find? p with
    | some place => do
      Traced.require (s.canRemove place p.1.depth) .ruleMove
      pure ⟨s.remove place p.1.depth, .deleted place⟩
    | none => pure ⟨s, .deleted none⟩
  | .restore p nextHop =>
    match s.find? p with
    | some place => pure ⟨s.setNextHop place nextHop, .restored place⟩
    | none => pure ⟨s, .restored none⟩
  | .find p => pure ⟨s, .found ((s.find? p).map fun i => (i, s.cell i))⟩
  | .cover a depth =>
    pure ⟨s, .covered ((s.covering? a depth).map fun found => (found.1, found.2, s.cell found.1))⟩
  | .count => pure ⟨s, .counted s.size⟩
  | .list => pure ⟨s, .listed s.toList⟩
  | .clear => pure ⟨s.clear, .cleared⟩

/-- Responds to requests one after the other. -/
def converse (s : RuleStore) : List StoreRequest → Traced (Outcome RuleStore (List StoreReply))
  | [] => pure ⟨s, []⟩
  | request :: requests => do
    let out ← s.respond request
    let rest ← out.state.converse requests
    pure ⟨rest.state, out.answer :: rest.answer⟩

/-! ### Replies of twins -/

/-- Two computations with the same answer and the same events that end in twins. -/
structure Alike {α : Type} (x x' : Traced (Outcome RuleStore α)) : Prop where
  answer : x.value.answer = x'.value.answer
  events : x.events = x'.events
  twins : x.value.state.Twins x'.value.state

variable {s s' : RuleStore}

theorem Twins.alike {α : Type} (h : s.Twins s') {x x' : α} (hx : x = x') :
    Alike (pure ⟨s, x⟩) (pure ⟨s', x'⟩) := ⟨hx, rfl, h⟩

theorem Twins.add (h : s.Twins s') {r : Rule} (hr : ValidDepth r.route.depth) :
    Alike (s.add r) (s'.add r) := by
  unfold RuleStore.add
  rw [← h.find? hr, ← h.capacity, ← h.size]
  cases hfind : s.find? r.route with
  | some place =>
    have hplace := (find?_eq_some hfind).1
    dsimp only
    rw [← h.cell hr hplace]
    split
    · exact h.alike rfl
    · exact (h.setNextHop hr hplace r.nextHop).alike rfl
  | none =>
    dsimp only
    split
    · exact h.alike rfl
    · next hfull =>
      have hroom := Nat.lt_of_not_le hfull
      have hroom' : s'.size < s'.capacity := h.size ▸ h.capacity ▸ hroom
      rw [h.packed.canInsert hr hroom, h.packed'.canInsert hr hroom', h.placeFor hr]
      exact ⟨rfl, rfl, h.insert hr hroom⟩

/-- Twins give the same reply and are twins again. -/
theorem Twins.respond (h : s.Twins s') (request : StoreRequest) :
    Alike (s.respond request) (s'.respond request) := by
  cases request with
  | add p nextHop =>
    obtain ⟨hanswer, hevents, htwins⟩ := h.add (r := ⟨p, nextHop⟩) p.2
    refine ⟨congrArg StoreReply.added hanswer, ?_, htwins⟩
    exact congrArg (· ++ []) hevents
  | delete p =>
    simp only [RuleStore.respond]
    rw [← h.find? p.2]
    cases hfind : s.find? p with
    | some place =>
      have hplace := (find?_eq_some hfind).1
      have hplace' := h.places p.2 ▸ hplace
      dsimp only
      rw [h.packed.canRemove p.2 hplace, h.packed'.canRemove p.2 hplace']
      exact ⟨rfl, rfl, h.remove p.2 hplace⟩
    | none => exact h.alike rfl
  | restore p nextHop =>
    simp only [RuleStore.respond]
    rw [← h.find? p.2]
    cases hfind : s.find? p with
    | some place => exact (h.setNextHop p.2 (find?_eq_some hfind).1 nextHop).alike rfl
    | none => exact h.alike rfl
  | find p =>
    refine h.alike (congrArg StoreReply.found ?_)
    rw [← h.find? p.2]
    refine Option.map_congr fun i hi => ?_
    rw [h.cell p.2 (find?_eq_some hi).1]
  | cover a depth =>
    refine h.alike (congrArg StoreReply.covered ?_)
    rw [← h.covering? a depth.2]
    refine Option.map_congr fun found hfound => ?_
    obtain ⟨⟨hlow, hlt⟩, hfind, -⟩ := covering?_eq_some_iff.mp hfound
    rw [h.cell (valid_of_lt depth.2 hlow hlt) (find?_eq_some hfind).1]
  | count => exact h.alike (congrArg StoreReply.counted h.size)
  | list => exact h.alike (congrArg StoreReply.listed h.toList)
  | clear =>
    have hcapacity : s'.clear = s.clear := congrArg new h.capacity.symm
    show Alike (pure ⟨s.clear, StoreReply.cleared⟩) (pure ⟨s'.clear, StoreReply.cleared⟩)
    rw [hcapacity]
    exact (twins_new s.capacity).alike rfl

/-- Two stores of one capacity that hold the same rules give the same replies, and do the same
beside them, to every list of requests. What lies in the other places and where the empty windows
begin is never seen. -/
theorem leftovers_unseen (h : s.Twins s') (requests : List StoreRequest) :
    (s.converse requests).value.answer = (s'.converse requests).value.answer ∧
      (s.converse requests).events = (s'.converse requests).events := by
  induction requests generalizing s s' with
  | nil => exact ⟨rfl, rfl⟩
  | cons request requests ih =>
    obtain ⟨hanswer, hevents, htwins⟩ := h.respond request
    obtain ⟨hanswers, hmore⟩ := ih htwins
    refine ⟨congrArg₂ List.cons hanswer hanswers, ?_⟩
    simp only [converse, Traced.events_bind, Traced.events_pure, hevents, hmore]

/-- An empty window of depth 16 that begins behind the array, and a cell behind all rules that
holds the base which is asked for. -/
theorem leftovers_unseen_between :
    let calls : List StoreCall := [.add ⟨⟨0x0A000000, 8⟩, by decide⟩ 1,
      .add ⟨⟨0x0A010200, 24⟩, by decide⟩ 3]
    let s := calls.foldl serve (new 4)
    let s' : RuleStore :=
      ⟨s.cells.setIfInBounds 3 ⟨0x0A010000, 7⟩, s.windows.set 15 ⟨0, 9⟩ (by decide)⟩
    let requests : List StoreRequest := [.find ⟨⟨0x0A010000, 16⟩, by decide⟩,
      .add ⟨⟨0x0A010000, 16⟩, by decide⟩ 2, .cover 0x0A010203 ⟨24, by decide⟩,
      .delete ⟨⟨0x0A000000, 8⟩, by decide⟩, .list]
    s ≠ s' ∧ s.Twins s' ∧
      (s.converse requests).value.answer = (s'.converse requests).value.answer := by
  intro calls s s' requests
  have htwins : s.Twins s' := by decide +kernel
  exact ⟨by decide +kernel, htwins, (leftovers_unseen htwins requests).1⟩

end RuleStore

end Dir248
