import Dir248.Proofs.Store.Contents

/-!
# What an addition does to the store

An addition finds the very rule, finds its prefix with another next hop, finds the store
full, or stores a new rule. The last can be undone: the place it answered holds the rule.

* **`RuleStore.Added`**, **`added_add`** — the four ways an addition can end.
* **`ruleAt_placeFor`** — where a new rule sits.
* **`Packed.canInsert`**, **`Packed.canRemove`**, **`Packed.faults_add`** — a change of a packed
  store stays in the array.
* **`Added.tidy`**, **`Added.wellFormed`**, **`Added.toMap`** — the store stays tidy and well formed
  and its map gains the rule.
* **`Packed.rulesAt_remove_insert`**, **`Added.undo`** — taking an addition back leaves the windows
  and the map as they were.
-/

namespace Dir248

namespace RuleStore

/-- How an addition to the store can end. -/
inductive Added (s : RuleStore) (r : Rule) : Outcome RuleStore (Except Failure Stored) → Prop
  | known (hmap : s.toMap r.route = some r.nextHop) : Added s r ⟨s, .ok .unchanged⟩
  | changed {place previous : Nat} (hplace : place ∈ (s.window r.route.depth).places)
      (hroute : (s.ruleAt r.route.depth place).route = r.route)
      (hmap : s.toMap r.route = some previous) (hne : previous ≠ r.nextHop) :
      Added s r ⟨s.setNextHop place r.nextHop, .ok (.updated place previous)⟩
  | full (hmap : s.toMap r.route = none) (hfull : s.capacity ≤ s.size) :
      Added s r ⟨s, .error .outOfSpace⟩
  | fresh (hmap : s.toMap r.route = none) (hnew : s.find? r.route = none)
      (hroom : s.size < s.capacity) :
      Added s r ⟨s.insert r, .ok (.inserted (s.placeFor r.route.depth))⟩

theorem added_add (s : RuleStore) {r : Rule} (hr : ValidDepth r.route.depth) :
    Added s r (s.add r).value := by
  have hmap := toMap_of_find? (s := s) hr
  unfold add
  split
  · next place hplace =>
    obtain ⟨hmem, hrule⟩ := find?_eq_some hplace
    have hroute := congrArg Rule.route hrule
    rw [hplace, Option.map_some] at hmap
    dsimp only
    split
    · next heq =>
      rw [heq] at hmap
      exact .known hmap
    · next hne => exact .changed hmem hroute hmap hne
  · next hnew =>
    rw [hnew, Option.map_none] at hmap
    split
    · next hfull => exact .full hmap hfull
    · next hroom => exact .fresh hmap hnew (Nat.lt_of_not_le hroom)

variable {s : RuleStore}

/-! ### The place of a new rule -/

theorem Packed.placeFor_lt (h : s.Packed) {d : Nat} (hd : ValidDepth d)
    (hroom : s.size < s.capacity) : s.placeFor d < s.capacity := by
  have hle : d + 1 ≤ 33 := Nat.succ_le_succ hd.2
  have hsize := filled_mono s (Nat.le_add_left 1 d) hle
  rw [h.placeFor_eq hd, ← filled_succ s hd.1]
  rw [size_eq_filled] at hroom
  omega

/-- The place that an addition answers is one of the window's. -/
theorem Packed.placeFor_mem (h : s.Packed) {r : Rule} (hr : ValidDepth r.route.depth) :
    s.placeFor r.route.depth ∈ ((s.insert r).window r.route.depth).places := by
  rw [Window.mem_places, window_insert s r hr, if_pos rfl, Window.stop, h.placeFor_eq hr]
  by_cases hu : 0 < (s.window r.route.depth).used
  · rw [if_pos hu, h.first hr hu]
    dsimp only
    omega
  · rw [if_neg hu]
    dsimp only
    omega

/-- A new rule sits at the place that its addition answered. -/
theorem Packed.ruleAt_placeFor (h : s.Packed) {r : Rule} (hr : ValidDepth r.route.depth)
    (hroom : s.size < s.capacity) :
    (s.insert r).ruleAt r.route.depth (s.placeFor r.route.depth) = r := by
  rw [ruleAt, cell_insert_place s r (h.placeFor_lt hr hroom)]

/-- An addition that finds room moves cells of the array only. -/
theorem Packed.canInsert (h : s.Packed) {d : Nat} (hd : ValidDepth d)
    (hroom : s.size < s.capacity) : s.canInsert d (s.placeFor d) = true := by
  simp only [RuleStore.canInsert, Bool.and_eq_true, decide_eq_true_iff, List.all_eq_true]
  refine ⟨h.placeFor_lt hd hroom, fun m hm => ?_⟩
  obtain ⟨e, ⟨he, -, hu⟩, rfl⟩ := (mem_openingMoves ..).mp hm
  have hstop : (s.window e).stop < s.capacity := by
    have hle : e + 1 ≤ 33 := Nat.succ_le_succ he.2
    rw [h.stop he hu]
    exact Nat.lt_of_le_of_lt (filled_mono s (by omega) hle) hroom
  refine ⟨Nat.lt_of_le_of_lt ?_ hstop, hstop⟩
  exact Nat.le_add_right _ _

/-- A rule that sits in the window of its depth can go. -/
theorem Packed.canRemove (h : s.Packed) {depth place : Nat} (hdepth : ValidDepth depth)
    (hplace : place ∈ (s.window depth).places) : s.canRemove place depth = true := by
  have hu := used_pos_of_mem hplace
  simp only [RuleStore.canRemove, Bool.and_eq_true, decide_eq_true_iff, List.all_eq_true]
  refine ⟨⟨hplace, h.stop_le_capacity hdepth hu⟩, fun d hd => ?_⟩
  obtain ⟨hd, hlt, hud⟩ := (mem_deeper s depth d).mp hd
  exact ⟨h.first_pos hdepth hd hlt hu hud, h.stop_le_capacity hd hud⟩

/-- No addition to a packed store leaves the array. -/
theorem Packed.faults_add (h : s.Packed) {r : Rule} (hr : ValidDepth r.route.depth) :
    (s.add r).faults = [] := by
  unfold RuleStore.add
  split
  · dsimp only
    split <;> rfl
  · split
    · rfl
    · next hroom =>
      dsimp only
      rw [h.canInsert hr (Nat.lt_of_not_le hroom), Traced.require_true]
      rfl

/-! ### The store after an addition -/

theorem Added.capacity {r : Rule} {out : Outcome RuleStore (Except Failure Stored)}
    (ha : Added s r out) : out.state.capacity = s.capacity := by
  cases ha <;> simp

theorem Added.tidy (h : s.Tidy) {r : Rule} (hr : ValidDepth r.route.depth)
    {out : Outcome RuleStore (Except Failure Stored)} (ha : Added s r out) : out.state.Tidy := by
  cases ha with
  | known => exact h
  | changed => exact h.setNextHop _ _
  | full => exact h
  | fresh _ hnew hroom => exact h.insert hr hroom hnew

theorem Added.wellFormed (h : s.WellFormed) {r : Rule} (hr : r.route.IsBlock)
    {out : Outcome RuleStore (Except Failure Stored)} (ha : Added s r out) :
    out.state.WellFormed := by
  cases ha with
  | known => exact h
  | changed hplace => exact h.setNextHop hr.depth hplace _
  | full => exact h
  | fresh _ hnew hroom => exact h.insert hr hroom hnew

/-- The rule is in the map of a store that took it. -/
theorem Added.toMap (h : s.WellFormed) {r : Rule} (hr : r.route.IsBlock) {s' : RuleStore}
    {stored : Stored} (ha : Added s r ⟨s', .ok stored⟩) :
    s'.toMap = Function.update s.toMap r.route (some r.nextHop) := by
  cases ha with
  | known hmap => rw [← hmap, Function.update_eq_self]
  | changed hplace hroute => rw [h.toMap_setNextHop hr.depth hplace, hroute]
  | fresh _ hnew hroom => exact h.toMap_insert hr hroom hnew

/-- A new rule that is removed again leaves the map as it was. -/
theorem WellFormed.toMap_remove_insert (h : s.WellFormed) {r : Rule} (hr : r.route.IsBlock)
    (hroom : s.size < s.capacity) (hnew : s.find? r.route = none) :
    ((s.insert r).remove (s.placeFor r.route.depth) r.route.depth).toMap = s.toMap := by
  have hmap : s.toMap r.route = none := by rw [toMap_of_find? hr.depth, hnew, Option.map_none]
  rw [(h.insert hr hroom hnew).toMap_remove hr.depth (h.packed.placeFor_mem hr.depth),
    h.packed.ruleAt_placeFor hr.depth hroom, h.toMap_insert hr hroom hnew,
    Function.update_idem, ← hmap, Function.update_eq_self]

theorem lastToFront_firstToBack {α : Type} (l : List α) : lastToFront (firstToBack l) = l := by
  cases l with
  | nil => rfl
  | cons x l => rw [firstToBack_cons, lastToFront_append_singleton]

/-- A new rule that is removed again leaves every window as it was, in its order. -/
theorem Packed.rulesAt_remove_insert (h : s.Packed) {r : Rule} (hr : ValidDepth r.route.depth)
    (hroom : s.size < s.capacity) {d : Nat} (hd : ValidDepth d) :
    ((s.insert r).remove (s.placeFor r.route.depth) r.route.depth).rulesAt d = s.rulesAt d := by
  have hinserted := h.insert hr hroom
  have hplace := h.placeFor_mem hr
  rcases Nat.lt_trichotomy d r.route.depth with hlt | rfl | hgt
  · rw [hinserted.rulesAt_remove_of_lt hr hplace hd hlt, h.rulesAt_insert_of_lt hr hd hlt]
  · -- the new rule is the last of its window, and the last one takes its place
    have hlast : s.placeFor r.route.depth - ((s.insert r).window r.route.depth).first =
        (s.rulesAt r.route.depth).length := by
      rw [window_insert s r hr, if_pos rfl, length_rulesAt, h.placeFor_eq hr]
      by_cases hu : 0 < (s.window r.route.depth).used
      · rw [if_pos hu, h.first hr hu]
        omega
      · rw [if_neg hu]
        dsimp only
        omega
    rw [hinserted.rulesAt_remove_self hr hplace, h.rulesAt_insert_self hr hroom, hlast,
      List.set_append_right _ _ (Nat.le_refl _), Nat.sub_self, List.set_cons_zero,
      List.dropLast_concat]
  · rw [hinserted.rulesAt_remove_of_gt hr hplace hd hgt, h.rulesAt_insert_of_gt hr hroom hd hgt,
      lastToFront_firstToBack]

/-- A next hop that is put back leaves the map as it was. -/
theorem WellFormed.toMap_setNextHop_back (h : s.WellFormed) {depth place : Nat}
    (hdepth : ValidDepth depth) (hplace : place ∈ (s.window depth).places) (nextHop : Nat)
    {previous : Nat} (hmap : s.toMap (s.ruleAt depth place).route = some previous) :
    ((s.setNextHop place nextHop).setNextHop place previous).toMap = s.toMap := by
  have hroute : ((s.setNextHop place nextHop).ruleAt depth place).route =
      (s.ruleAt depth place).route := by
    rw [ruleAt_setNextHop s (h.packed.place_lt hdepth hplace), if_pos rfl]
  rw [(h.setNextHop hdepth hplace nextHop).toMap_setNextHop hdepth hplace, hroute,
    h.toMap_setNextHop hdepth hplace, Function.update_idem, ← hmap, Function.update_eq_self]

/-- An addition that is taken back leaves the map as it was. -/
theorem Added.undo (h : s.WellFormed) {r : Rule} (hr : r.route.IsBlock) {s' : RuleStore}
    {stored : Stored} (ha : Added s r ⟨s', .ok stored⟩) :
    (Router.undo s' r.route.depth stored).value.WellFormed ∧
      (Router.undo s' r.route.depth stored).value.toMap = s.toMap := by
  cases ha with
  | known => exact ⟨h, rfl⟩
  | @changed place previous hplace hroute hmap =>
    have hchanged := h.setNextHop hr.depth hplace r.nextHop
    rw [← hroute] at hmap
    exact ⟨hchanged.setNextHop hr.depth hplace previous,
      h.toMap_setNextHop_back hr.depth hplace r.nextHop hmap⟩
  | fresh _ hnew hroom =>
    exact ⟨(h.insert hr hroom hnew).remove hr.depth (h.packed.placeFor_mem hr.depth),
      h.toMap_remove_insert hr hroom hnew⟩

end RuleStore

end Dir248
