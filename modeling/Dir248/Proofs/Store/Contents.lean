import Dir248.Proofs.RuleMap
import Dir248.Proofs.Store.Order
import Dir248.Table
import Mathlib.Data.List.Nodup
import Mathlib.Data.List.Perm.Basic

/-!
# The store as a map

A store whose windows are packed and hold each base once is a map from prefixes to next
hops, and every change of the store is one change of the map.

* **`RuleStore.WellFormed`** — packed windows, no prefix twice, every prefix a block.
* **`RuleStore.Tidy`** — packed windows and no prefix twice, which no prefix has to be a block for.
* **`RuleStore.toMap`** — the rules of a store as a map; **`toMap_eq_some_iff`** says that the
  list of rules is the map.
* **`toMap_insert`**, **`toMap_remove`**, **`toMap_setNextHop`** — the changes.
* **`cover?_eq_best`** — the cover of a prefix is the best of the shallower rules around it.
-/

namespace Dir248

namespace RuleStore

/-! ### Well-formed stores -/

/-- The windows are packed, no prefix is stored twice, and every prefix is a block. -/
structure WellFormed (s : RuleStore) : Prop where
  packed : s.Packed
  nodup : ∀ {d}, ValidDepth d → ((s.rulesAt d).map Rule.route).Nodup
  isBlock : ∀ {r}, r ∈ s.toList → r.route.IsBlock

/-- The windows are packed and no prefix is stored twice, whatever the prefixes are. -/
structure Tidy (s : RuleStore) : Prop where
  packed : s.Packed
  nodup : ∀ {d}, ValidDepth d → ((s.rulesAt d).map Rule.route).Nodup

theorem WellFormed.tidy {s : RuleStore} (h : s.WellFormed) : s.Tidy := ⟨h.packed, h.nodup⟩

/-- The next hop of the rule of exactly a prefix, for the depths that a rule may have. -/
def toMap (s : RuleStore) : RuleMap := fun p =>
  if ValidDepth p.depth then (s.find? p).map fun i => (s.cell i).nextHop else none

theorem depth_of_mem_rulesAt {s : RuleStore} {d : Nat} {r : Rule} (h : r ∈ s.rulesAt d) :
    r.route.depth = d := by
  obtain ⟨i, -, rfl⟩ := List.mem_map.mp h
  rfl

theorem mem_toList (s : RuleStore) (r : Rule) :
    r ∈ s.toList ↔ ValidDepth r.route.depth ∧ r ∈ s.rulesAt r.route.depth := by
  rw [toList, List.mem_flatMap]
  constructor
  · intro h
    obtain ⟨d, hd, hr⟩ := h
    have := depth_of_mem_rulesAt hr
    subst this
    exact ⟨(mem_depths _).mp hd, hr⟩
  · intro h
    obtain ⟨hd, hr⟩ := h
    exact ⟨_, (mem_depths _).mpr hd, hr⟩

theorem ruleAt_mem {s : RuleStore} {d i : Nat} (hd : ValidDepth d)
    (hi : i ∈ (s.window d).places) : s.ruleAt d i ∈ s.toList :=
  (mem_toList s _).mpr ⟨hd, List.mem_map_of_mem hi⟩

theorem find?_eq_some {s : RuleStore} {p : Prefix} {i : Nat} (h : s.find? p = some i) :
    i ∈ (s.window p.depth).places ∧ s.ruleAt p.depth i = ⟨p, (s.cell i).nextHop⟩ := by
  have hbase : (s.cell i).base = p.base := by simpa using List.find?_some h
  refine ⟨List.mem_of_find?_eq_some h, ?_⟩
  rw [ruleAt, hbase]

theorem find?_eq_none {s : RuleStore} {p : Prefix} (h : s.find? p = none) {r : Rule}
    (hr : r ∈ s.rulesAt p.depth) : r.route ≠ p := by
  obtain ⟨i, hi, rfl⟩ := List.mem_map.mp hr
  have hbase := List.find?_eq_none.mp h i hi
  intro heq
  exact hbase (beq_iff_eq.mpr (congrArg Prefix.base heq))

theorem toMap_of_find? {s : RuleStore} {p : Prefix} (hp : ValidDepth p.depth) :
    s.toMap p = (s.find? p).map fun i => (s.cell i).nextHop := if_pos hp

/-- The list of rules is the map. -/
theorem WellFormed.toMap_eq_some_iff {s : RuleStore} (h : s.WellFormed) (p : Prefix) (hop : Nat) :
    s.toMap p = some hop ↔ ⟨p, hop⟩ ∈ s.toList := by
  rw [mem_toList, toMap]
  by_cases hp : ValidDepth p.depth
  · rw [if_pos hp]
    constructor
    · intro hfind
      obtain ⟨i, hi, rfl⟩ := Option.map_eq_some_iff.mp hfind
      obtain ⟨hmem, hrule⟩ := find?_eq_some hi
      exact ⟨hp, List.mem_map.mpr ⟨i, hmem, hrule⟩⟩
    · intro h'
      obtain ⟨-, hmem⟩ := h'
      cases hfind : s.find? p with
      | none => exact absurd rfl (find?_eq_none hfind hmem)
      | some i =>
        obtain ⟨hi, hrule⟩ := find?_eq_some hfind
        have hmem' : (⟨p, (s.cell i).nextHop⟩ : Rule) ∈ s.rulesAt p.depth :=
          List.mem_map.mpr ⟨i, hi, hrule⟩
        have heq := List.inj_on_of_nodup_map (h.nodup hp) hmem' hmem rfl
        exact congrArg some (congrArg Rule.nextHop heq)
  · rw [if_neg hp]
    exact ⟨nofun, fun hmem => absurd hmem.1 hp⟩

theorem WellFormed.toMap_of_mem {s : RuleStore} (h : s.WellFormed) {r : Rule} (hr : r ∈ s.toList) :
    s.toMap r.route = some r.nextHop := (h.toMap_eq_some_iff _ _).mpr hr

/-- The map is valid where the next hops fit. -/
theorem WellFormed.valid {s : RuleStore} (h : s.WellFormed)
    (hhop : ∀ r ∈ s.toList, r.nextHop ≤ maxNextHop) : s.toMap.Valid :=
  ⟨fun hp => h.isBlock ((h.toMap_eq_some_iff _ _).mp hp),
    fun hp => hhop _ ((h.toMap_eq_some_iff _ _).mp hp)⟩

/-- No rule is listed twice. -/
theorem WellFormed.nodup_toList {s : RuleStore} (h : s.WellFormed) : s.toList.Nodup := by
  rw [toList, List.nodup_flatMap]
  refine ⟨fun d hd => List.Nodup.of_map _ (h.nodup ((mem_depths d).mp hd)), ?_⟩
  refine (List.pairwise_lt_range' (s := 1) (n := 32)).imp fun {d e} hde => ?_
  intro r hr hr'
  rw [← depth_of_mem_rulesAt hr, ← depth_of_mem_rulesAt hr'] at hde
  exact Nat.lt_irrefl _ hde

theorem rulesAt_new (capacity d : Nat) : (new capacity).rulesAt d = [] := by
  have hw : (new capacity).window d = {} := by
    simp only [window, new]
    rcases Nat.lt_or_ge (d - 1) 32 with hlt | hge
    · simp [hlt]
    · rw [Vector.getElem?_eq_none hge]
      rfl
  rw [rulesAt, hw]
  rfl

theorem not_mem_toList_new (capacity : Nat) (r : Rule) : r ∉ (new capacity).toList := by
  rw [mem_toList, rulesAt_new]
  exact fun h => List.not_mem_nil h.2

theorem tidy_new (capacity : Nat) : (new capacity).Tidy := by
  refine ⟨packed_new capacity, fun {d} _ => ?_⟩
  rw [rulesAt_new]
  exact List.nodup_nil

theorem wellFormed_new (capacity : Nat) : (new capacity).WellFormed :=
  ⟨packed_new capacity, (tidy_new capacity).nodup, fun {r} hr =>
    absurd hr (not_mem_toList_new _ r)⟩

theorem toMap_new (capacity : Nat) : (new capacity).toMap = fun _ => none := by
  funext p
  rw [Option.eq_none_iff_forall_ne_some]
  intro hop hp
  exact not_mem_toList_new _ _ (((wellFormed_new capacity).toMap_eq_some_iff p hop).mp hp)

/-- Where the lists of rules differ in the rule of one prefix, so do the maps. -/
theorem WellFormed.toMap_eq_update {s s' : RuleStore} (h : s.WellFormed) (h' : s'.WellFormed)
    (p : Prefix) (x : Option Nat)
    (hmem : ∀ r, r ∈ s'.toList ↔ (r.route = p ∧ x = some r.nextHop) ∨
      (r.route ≠ p ∧ r ∈ s.toList)) : s'.toMap = Function.update s.toMap p x := by
  funext q
  refine Option.ext fun hop => ?_
  rw [h'.toMap_eq_some_iff, hmem]
  rcases eq_or_ne q p with rfl | hne
  · rw [Function.update_self]
    simp
  · rw [Function.update_of_ne hne, h.toMap_eq_some_iff]
    simp [hne]

/-! ### One more rule -/

section Changes

variable {s : RuleStore}

theorem Packed.perm_insert (h : s.Packed) {r : Rule} (hr : ValidDepth r.route.depth)
    (hroom : s.size < s.capacity) {d : Nat} (hd : ValidDepth d) :
    ((s.insert r).rulesAt d).Perm
      (if d = r.route.depth then r :: s.rulesAt d else s.rulesAt d) := by
  rcases Nat.lt_trichotomy d r.route.depth with hlt | rfl | hgt
  · rw [if_neg (Nat.ne_of_lt hlt), h.rulesAt_insert_of_lt hr hd hlt]
  · rw [if_pos rfl, h.rulesAt_insert_self hr hroom]
    exact List.perm_append_comm
  · rw [if_neg (Nat.ne_of_gt hgt), h.rulesAt_insert_of_gt hr hroom hd hgt]
    exact perm_firstToBack _

theorem Packed.mem_insert (h : s.Packed) {r : Rule} (hr : ValidDepth r.route.depth)
    (hroom : s.size < s.capacity) (q : Rule) :
    q ∈ (s.insert r).toList ↔ q = r ∨ q ∈ s.toList := by
  rw [mem_toList, mem_toList]
  by_cases hd : ValidDepth q.route.depth
  · rw [(h.perm_insert hr hroom hd).mem_iff]
    split
    · next heq => simp [hd, List.mem_cons]
    · next hne =>
      have : q ≠ r := fun heq => hne (heq ▸ rfl)
      simp [hd, this]
  · have : q ≠ r := fun heq => hd (heq ▸ hr)
    simp [hd, this]

/-- A rule of a new prefix may be added while there is room. -/
theorem Tidy.insert (h : s.Tidy) {r : Rule} (hr : ValidDepth r.route.depth)
    (hroom : s.size < s.capacity) (hnew : s.find? r.route = none) : (s.insert r).Tidy := by
  refine ⟨h.packed.insert hr hroom, fun {d} hd => ?_⟩
  rw [((h.packed.perm_insert hr hroom hd).map Rule.route).nodup_iff]
  split
  · next heq =>
    subst heq
    rw [List.map_cons, List.nodup_cons]
    refine ⟨fun hmem => ?_, h.nodup hd⟩
    obtain ⟨q, hq, hroute⟩ := List.mem_map.mp hmem
    exact find?_eq_none hnew hq hroute
  · exact h.nodup hd

theorem WellFormed.insert (h : s.WellFormed) {r : Rule} (hr : r.route.IsBlock)
    (hroom : s.size < s.capacity) (hnew : s.find? r.route = none) : (s.insert r).WellFormed := by
  have htidy := h.tidy.insert hr.depth hroom hnew
  refine ⟨htidy.packed, htidy.nodup, fun {q} hq => ?_⟩
  rcases (h.packed.mem_insert hr.depth hroom q).mp hq with rfl | hq
  · exact hr
  · exact h.isBlock hq

theorem WellFormed.toMap_insert (h : s.WellFormed) {r : Rule} (hr : r.route.IsBlock)
    (hroom : s.size < s.capacity) (hnew : s.find? r.route = none) :
    (s.insert r).toMap = Function.update s.toMap r.route (some r.nextHop) := by
  refine h.toMap_eq_update (h.insert hr hroom hnew) _ _ fun q => ?_
  rw [h.packed.mem_insert hr.depth hroom]
  constructor
  · intro h'
    obtain rfl | hq := h'
    · exact .inl ⟨rfl, rfl⟩
    · refine .inr ⟨fun heq => ?_, hq⟩
      have hq' := ((mem_toList s q).mp hq).2
      rw [heq] at hq'
      exact find?_eq_none hnew hq' heq
  · intro h'
    obtain ⟨hroute, hhop⟩ | ⟨-, hq⟩ := h'
    · left
      cases q
      cases hroute
      cases hhop
      rfl
    · exact .inr hq

/-! ### One rule less -/

theorem perm_set_dropLast {α : Type} (l : List α) {k : Nat} (hk : k < l.length)
    (hne : l ≠ []) : l.Perm (l[k] :: (l.set k (l.getLast hne)).dropLast) := by
  obtain ⟨init, z, rfl⟩ : ∃ init z, l = init ++ [z] :=
    ⟨l.dropLast, l.getLast hne, (List.dropLast_append_getLast hne).symm⟩
  rw [List.getLast_append_singleton]
  rcases Nat.lt_or_ge k init.length with hlt | hge
  · rw [List.set_append_left _ _ hlt, List.dropLast_concat, List.getElem_append_left hlt]
    have hswap := List.getD_set_perm_cons init k z
    rw [List.getElem?_eq_getElem hlt, Option.getD_some] at hswap
    exact List.perm_append_comm.trans hswap.symm
  · have hk' : k = init.length := by
      rw [List.length_append, List.length_singleton] at hk
      omega
    subst hk'
    rw [List.set_append_right _ _ (Nat.le_refl _), Nat.sub_self, List.set_cons_zero,
      List.dropLast_concat, List.getElem_concat_length rfl]
    exact List.perm_append_comm

theorem Packed.perm_remove_self (h : s.Packed) {depth place : Nat} (hdepth : ValidDepth depth)
    (hplace : place ∈ (s.window depth).places) :
    (s.rulesAt depth).Perm (s.ruleAt depth place :: (s.remove place depth).rulesAt depth) := by
  obtain ⟨hk, hrule⟩ := List.getElem?_eq_some_iff.mp (getElem?_rulesAt hplace)
  have hne : s.rulesAt depth ≠ [] := List.ne_nil_of_length_pos (Nat.zero_lt_of_lt hk)
  have hlast := getLast?_rulesAt (used_pos_of_mem hplace)
  rw [List.getLast?_eq_some_getLast hne] at hlast
  rw [h.rulesAt_remove_self hdepth hplace, ← Option.some.inj hlast, ← hrule]
  exact perm_set_dropLast _ hk hne

theorem Packed.perm_remove_of_ne (h : s.Packed) {depth place : Nat} (hdepth : ValidDepth depth)
    (hplace : place ∈ (s.window depth).places) {d : Nat} (hd : ValidDepth d) (hne : d ≠ depth) :
    ((s.remove place depth).rulesAt d).Perm (s.rulesAt d) := by
  rcases Nat.lt_or_gt_of_ne hne with hlt | hgt
  · rw [h.rulesAt_remove_of_lt hdepth hplace hd hlt]
  · rw [h.rulesAt_remove_of_gt hdepth hplace hd hgt]
    exact perm_lastToFront _

theorem Tidy.mem_remove (h : s.Tidy) {depth place : Nat} (hdepth : ValidDepth depth)
    (hplace : place ∈ (s.window depth).places) (q : Rule) :
    q ∈ (s.remove place depth).toList ↔
      q.route ≠ (s.ruleAt depth place).route ∧ q ∈ s.toList := by
  rw [mem_toList, mem_toList]
  by_cases hd : ValidDepth q.route.depth
  · rcases eq_or_ne q.route.depth depth with rfl | hne
    · have hperm := h.packed.perm_remove_self hdepth hplace
      have hnodup := h.nodup hdepth
      rw [(hperm.map Rule.route).nodup_iff, List.map_cons, List.nodup_cons] at hnodup
      rw [hperm.mem_iff, List.mem_cons]
      constructor
      · intro h'
        obtain ⟨-, hq⟩ := h'
        refine ⟨fun heq => hnodup.1 ?_, hd, .inr hq⟩
        rw [← heq]
        exact List.mem_map_of_mem hq
      · intro h'
        obtain ⟨hroute, -, heq | hq⟩ := h'
        · exact absurd (congrArg Rule.route heq) hroute
        · exact ⟨hd, hq⟩
    · have hroute : q.route ≠ (s.ruleAt depth place).route := fun heq => hne (heq ▸ rfl)
      rw [(h.packed.perm_remove_of_ne hdepth hplace hd hne).mem_iff]
      simp [hroute]
  · simp [hd]

/-- Any rule may go. -/
theorem Tidy.remove (h : s.Tidy) {depth place : Nat} (hdepth : ValidDepth depth)
    (hplace : place ∈ (s.window depth).places) : (s.remove place depth).Tidy := by
  refine ⟨h.packed.remove place hdepth (used_pos_of_mem hplace), fun {d} hd => ?_⟩
  rcases eq_or_ne d depth with rfl | hne
  · have hnodup := h.nodup hdepth
    rw [((h.packed.perm_remove_self hdepth hplace).map Rule.route).nodup_iff, List.map_cons,
      List.nodup_cons] at hnodup
    exact hnodup.2
  · rw [((h.packed.perm_remove_of_ne hdepth hplace hd hne).map Rule.route).nodup_iff]
    exact h.nodup hd

theorem WellFormed.remove (h : s.WellFormed) {depth place : Nat} (hdepth : ValidDepth depth)
    (hplace : place ∈ (s.window depth).places) : (s.remove place depth).WellFormed := by
  have htidy := h.tidy.remove hdepth hplace
  exact ⟨htidy.packed, htidy.nodup, fun {q} hq =>
    h.isBlock ((h.tidy.mem_remove hdepth hplace q).mp hq).2⟩

theorem WellFormed.toMap_remove (h : s.WellFormed) {depth place : Nat} (hdepth : ValidDepth depth)
    (hplace : place ∈ (s.window depth).places) :
    (s.remove place depth).toMap = Function.update s.toMap (s.ruleAt depth place).route none := by
  refine h.toMap_eq_update (h.remove hdepth hplace) _ _ fun q => ?_
  rw [h.tidy.mem_remove hdepth hplace]
  simp

/-! ### Another next hop -/

theorem Packed.window_unique (h : s.Packed) {d e i : Nat} (hd : ValidDepth d) (he : ValidDepth e)
    (hi : i ∈ (s.window d).places) (hi' : i ∈ (s.window e).places) : d = e := by
  have hud := used_pos_of_mem hi
  have hue := used_pos_of_mem hi'
  rw [Window.mem_places] at hi hi'
  rcases Nat.lt_trichotomy d e with hlt | heq | hgt
  · have := h.stop_le_first hd he hlt hud hue
    omega
  · exact heq
  · have := h.stop_le_first he hd hgt hue hud
    omega

theorem Packed.place_lt (h : s.Packed) {d i : Nat} (hd : ValidDepth d)
    (hi : i ∈ (s.window d).places) : i < s.capacity :=
  Nat.lt_of_lt_of_le ((Window.mem_places _ _).mp hi).2
    (h.stop_le_capacity hd (used_pos_of_mem hi))

theorem mem_toList_iff_ruleAt (s : RuleStore) (r : Rule) :
    r ∈ s.toList ↔ ∃ d i, ValidDepth d ∧ i ∈ (s.window d).places ∧ s.ruleAt d i = r := by
  simp only [toList, List.mem_flatMap, mem_depths, rulesAt_eq_map, List.mem_map, exists_and_left]

/-- A prefix is stored in one place only. -/
theorem WellFormed.place_unique (h : s.WellFormed) {d e i j : Nat} (hd : ValidDepth d)
    (hi : i ∈ (s.window d).places) (hj : j ∈ (s.window e).places)
    (hroute : (s.ruleAt d i).route = (s.ruleAt e j).route) : i = j := by
  obtain rfl : d = e := congrArg Prefix.depth hroute
  have hnodup := h.nodup hd
  rw [rulesAt_eq_map, List.map_map] at hnodup
  exact List.inj_on_of_nodup_map hnodup hi hj hroute

theorem WellFormed.mem_setNextHop (h : s.WellFormed) {depth place : Nat}
    (hdepth : ValidDepth depth) (hplace : place ∈ (s.window depth).places) (nextHop : Nat)
    (q : Rule) : q ∈ (s.setNextHop place nextHop).toList ↔
      q = { s.ruleAt depth place with nextHop } ∨
        (q.route ≠ (s.ruleAt depth place).route ∧ q ∈ s.toList) := by
  have hin := h.packed.place_lt hdepth hplace
  have hmem : q ∈ (s.setNextHop place nextHop).toList ↔ ∃ d i, ValidDepth d ∧
      i ∈ (s.window d).places ∧
        (if i = place then { s.ruleAt d i with nextHop } else s.ruleAt d i) = q := by
    simp only [toList, List.mem_flatMap, mem_depths, rulesAt_setNextHop s hin, List.mem_map,
      exists_and_left]
  rw [hmem, mem_toList_iff_ruleAt]
  constructor
  · intro h'
    obtain ⟨d, i, hd, hi, hq⟩ := h'
    by_cases heq : i = place
    · subst heq
      obtain rfl := h.packed.window_unique hd hdepth hi hplace
      rw [if_pos rfl] at hq
      exact .inl hq.symm
    · rw [if_neg heq] at hq
      refine .inr ⟨fun hroute => heq ?_, d, i, hd, hi, hq⟩
      rw [← hq] at hroute
      exact h.place_unique hd hi hplace hroute
  · intro h'
    obtain rfl | ⟨hroute, d, i, hd, hi, rfl⟩ := h'
    · exact ⟨depth, place, hdepth, hplace, if_pos rfl⟩
    · refine ⟨d, i, hd, hi, if_neg fun heq => hroute ?_⟩
      subst heq
      obtain rfl := h.packed.window_unique hd hdepth hi hplace
      rfl

/-- Another next hop changes no prefix. -/
theorem Tidy.setNextHop (h : s.Tidy) (place nextHop : Nat) : (s.setNextHop place nextHop).Tidy :=
  ⟨h.packed.setNextHop place nextHop, fun {d} hd =>
    routes_setNextHop s place nextHop d ▸ h.nodup hd⟩

theorem WellFormed.setNextHop (h : s.WellFormed) {depth place : Nat} (hdepth : ValidDepth depth)
    (hplace : place ∈ (s.window depth).places) (nextHop : Nat) :
    (s.setNextHop place nextHop).WellFormed := by
  have htidy := h.tidy.setNextHop place nextHop
  refine ⟨htidy.packed, htidy.nodup, fun {q} hq => ?_⟩
  rcases (h.mem_setNextHop hdepth hplace nextHop q).mp hq with rfl | ⟨-, hq⟩
  · show (s.ruleAt depth place).route.IsBlock
    exact h.isBlock (ruleAt_mem hdepth hplace)
  · exact h.isBlock hq

theorem WellFormed.toMap_setNextHop (h : s.WellFormed) {depth place : Nat}
    (hdepth : ValidDepth depth) (hplace : place ∈ (s.window depth).places) (nextHop : Nat) :
    (s.setNextHop place nextHop).toMap =
      Function.update s.toMap (s.ruleAt depth place).route (some nextHop) := by
  refine h.toMap_eq_update (h.setNextHop hdepth hplace nextHop) _ _ fun q => ?_
  rw [h.mem_setNextHop hdepth hplace]
  refine or_congr_left ?_
  constructor
  · intro heq
    subst heq
    exact ⟨rfl, rfl⟩
  · intro h'
    obtain ⟨hroute, hhop⟩ := h'
    cases q
    cases hroute
    cases hhop
    rfl

end Changes

end RuleStore

/-! ### The cover of a prefix -/

theorem covering?_eq_best (s : RuleStore) (a : Address) {n : Nat} (hn : n ≤ 32) :
    ((List.range' 1 n).reverse.findSome? fun d => (s.find? (.of a d)).map fun i => (i, d)).map
      (fun found => (⟨found.2, (s.cell found.1).nextHop⟩ : Route)) = s.toMap.best a n := by
  induction n with
  | zero => rfl
  | succ n ih =>
    have hmap := RuleStore.toMap_of_find? (s := s) (p := .of a (n + 1)) ⟨by simp [Prefix.of], hn⟩
    rw [List.range'_1_concat, List.reverse_append, List.reverse_singleton, List.singleton_append,
      List.findSome?_cons, Nat.add_comm 1 n, RuleMap.best, hmap, ← ih (by omega)]
    cases s.find? (.of a (n + 1)) <;> rfl

/-- The cover of a prefix is the best of the shallower rules around it. -/
theorem cover?_eq_best (s : RuleStore) {p : Prefix} (hp : p.IsBlock) :
    Router.cover? s p = s.toMap.best p.base (p.depth - 1) := by
  have hle := hp.le
  exact covering?_eq_best s p.base (by omega)

end Dir248
