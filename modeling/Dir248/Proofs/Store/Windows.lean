import Dir248.Rules
import Mathlib.Data.List.Basic

/-!
# Packed windows

The windows that hold rules follow each other from the start of the array without gaps,
shallowest first. Where a window starts is then decided by the number of rules in the
shallower ones; the start of an empty window says nothing and is never compared.

* **`RuleStore.filled`** — the number of rules shallower than a depth.
* **`RuleStore.Packed`** — the windows that hold rules start where the shallower rules end.
* **`placeFor_eq`** — a new rule of a depth goes behind all rules that are not deeper.
* **`Packed.insert`**, **`Packed.remove`** — changes keep the windows packed.
-/

namespace Dir248

namespace RuleStore

/-! ### Counting rules -/

/-- The number of rules that are shallower than a depth. -/
def filled (s : RuleStore) (depth : Nat) : Nat :=
  ((List.range' 1 (depth - 1)).map fun d => (s.window d).used).sum

theorem filled_succ (s : RuleStore) {d : Nat} (h : 1 ≤ d) :
    s.filled (d + 1) = s.filled d + (s.window d).used := by
  obtain ⟨k, rfl⟩ : ∃ k, d = k + 1 := ⟨d - 1, by omega⟩
  simp only [filled, Nat.add_sub_cancel, List.range'_1_concat, List.map_append, List.sum_append,
    List.map_cons, List.map_nil, List.sum_cons, List.sum_nil, Nat.add_zero, Nat.add_comm 1 k]

theorem filled_one (s : RuleStore) : s.filled 1 = 0 := rfl

theorem size_eq_filled (s : RuleStore) : s.size = s.filled 33 := rfl

theorem filled_mono (s : RuleStore) {d e : Nat} (hd : 1 ≤ d) (h : d ≤ e) :
    s.filled d ≤ s.filled e := by
  induction e with
  | zero => omega
  | succ e ih =>
    rcases Nat.lt_or_eq_of_le h with hlt | rfl
    · have := ih (by omega)
      rw [filled_succ s (by omega)]
      omega
    · exact Nat.le_refl _

theorem filled_succ_le (s : RuleStore) {d e : Nat} (hd : 1 ≤ d) (h : d < e) :
    s.filled d + (s.window d).used ≤ s.filled e := by
  rw [← filled_succ s hd]
  exact filled_mono s (by omega) h

/-! ### Packed windows -/

/-- The windows that hold rules follow each other from the start of the array. -/
structure Packed (s : RuleStore) : Prop where
  first : ∀ {d}, ValidDepth d → 0 < (s.window d).used → (s.window d).first = s.filled d
  fits : s.size ≤ s.capacity

section Packed

variable {s : RuleStore}

theorem window_new (capacity d : Nat) : (new capacity).window d = {} := by
  simp only [window, new]
  rcases Nat.lt_or_ge (d - 1) 32 with hlt | hge
  · simp [hlt]
  · rw [Vector.getElem?_eq_none hge]
    rfl

theorem size_new (capacity : Nat) : (new capacity).size = 0 := by
  simp only [size, window_new]
  rfl

theorem packed_new (capacity : Nat) : (new capacity).Packed := by
  refine ⟨fun {d} _ hu => ?_, ?_⟩
  · rw [window_new] at hu
    exact absurd hu (Nat.lt_irrefl 0)
  · rw [size_new]
    exact Nat.zero_le _

theorem Packed.stop (h : s.Packed) {d : Nat} (hd : ValidDepth d) (hu : 0 < (s.window d).used) :
    (s.window d).stop = s.filled (d + 1) := by
  rw [Window.stop, h.first hd hu, filled_succ s hd.1]

/-- A window that holds rules ends where or before a deeper one begins. -/
theorem Packed.stop_le_first (h : s.Packed) {d e : Nat} (hd : ValidDepth d) (he : ValidDepth e)
    (hde : d < e) (hud : 0 < (s.window d).used) (hue : 0 < (s.window e).used) :
    (s.window d).stop ≤ (s.window e).first := by
  rw [h.stop hd hud, h.first he hue]
  exact filled_mono s (by omega) hde

theorem Packed.stop_le_capacity (h : s.Packed) {d : Nat} (hd : ValidDepth d)
    (hu : 0 < (s.window d).used) : (s.window d).stop ≤ s.capacity := by
  rw [h.stop hd hu]
  have hle : d + 1 ≤ 33 := Nat.succ_le_succ hd.2
  exact Nat.le_trans (filled_mono s (by omega) hle) h.fits

theorem filled_eq_of_empty (s : RuleStore) {d e : Nat} (hd : 1 ≤ d) (hde : d ≤ e)
    (hempty : ∀ k, d ≤ k → k < e → (s.window k).used = 0) : s.filled e = s.filled d := by
  induction e with
  | zero => omega
  | succ e ih =>
    rcases Nat.lt_or_eq_of_le hde with hlt | rfl
    · rw [filled_succ s (by omega), hempty e (by omega) (by omega), Nat.add_zero,
        ih (by omega) fun k h1 h2 => hempty k h1 (by omega)]
    · rfl

/-- A new rule of a depth goes behind all rules that are not deeper. -/
theorem Packed.placeFor_eq (h : s.Packed) {d : Nat} (hd : ValidDepth d) :
    s.placeFor d = s.filled d + (s.window d).used := by
  unfold placeFor
  by_cases hu : 0 < (s.window d).used
  · rw [if_pos hu, h.stop hd hu, filled_succ s hd.1]
  · rw [if_neg hu, Nat.eq_zero_of_not_pos hu, Nat.add_zero]
    have hsorted : (depths.filter fun k => k < d ∧ 0 < (s.window k).used).Pairwise (· < ·) :=
      List.Pairwise.filter _ List.pairwise_lt_range'
    have hmem : ∀ k, k ∈ (depths.filter fun k => k < d ∧ 0 < (s.window k).used) ↔
        ValidDepth k ∧ k < d ∧ 0 < (s.window k).used := by
      intro k
      rw [List.mem_filter, mem_depths, decide_eq_true_iff]
    generalize depths.filter (fun k => k < d ∧ 0 < (s.window k).used) = ds at hsorted hmem
    cases hlast : ds.getLast? with
    | none =>
      cases List.getLast?_eq_none_iff.mp hlast
      show 0 = s.filled d
      rw [filled_eq_of_empty s (Nat.le_refl 1) hd.1, filled_one]
      intro k h1 h2
      by_contra hk
      have hk32 : k ≤ 32 := Nat.le_trans (Nat.le_of_lt h2) hd.2
      exact absurd ((hmem k).mpr ⟨⟨h1, hk32⟩, h2, Nat.pos_of_ne_zero hk⟩) (List.not_mem_nil)
    | some e =>
      obtain ⟨init, rfl⟩ := List.getLast?_eq_some_iff.mp hlast
      obtain ⟨he, hed, hue⟩ := (hmem e).mp (List.mem_append_right _ (List.mem_singleton_self e))
      show (s.window e).stop = s.filled d
      rw [h.stop he hue, ← filled_eq_of_empty s (by omega) (by omega : e + 1 ≤ d)]
      -- a window between the last one and `d` would come behind the last one
      intro k h1 h2
      by_contra hk
      have hk32 : k ≤ 32 := Nat.le_trans (Nat.le_of_lt h2) hd.2
      have hmk := (hmem k).mpr ⟨⟨by omega, hk32⟩, h2, Nat.pos_of_ne_zero hk⟩
      rcases List.mem_append.mp hmk with hin | hin
      · have := (List.pairwise_append.mp hsorted).2.2 k hin e (List.mem_singleton_self e)
        omega
      · have := List.mem_singleton.mp hin
        omega

end Packed

/-! ### The windows of a change -/

theorem capacity_foldl_move (ms : List Move) (cells : Array Cell) :
    (ms.foldl move cells).size = cells.size := by
  induction ms generalizing cells with
  | nil => rfl
  | cons m ms ih => rw [List.foldl_cons, ih, move, Array.size_setIfInBounds]

@[simp] theorem capacity_insert (s : RuleStore) (r : Rule) :
    (s.insert r).capacity = s.capacity := by
  simp only [insert, capacity, Array.size_setIfInBounds, capacity_foldl_move]

@[simp] theorem capacity_remove (s : RuleStore) (place depth : Nat) :
    (s.remove place depth).capacity = s.capacity := by
  simp only [remove, capacity, capacity_foldl_move, Array.size_setIfInBounds]

@[simp] theorem capacity_setNextHop (s : RuleStore) (place nextHop : Nat) :
    (s.setNextHop place nextHop).capacity = s.capacity := by
  simp only [setNextHop, capacity, Array.size_setIfInBounds]

theorem window_insert (s : RuleStore) (r : Rule) {d : Nat} (hd : ValidDepth d) :
    (s.insert r).window d =
      if d = r.route.depth then
        ⟨(s.window d).used + 1,
          if 0 < (s.window d).used then (s.window d).first else s.placeFor r.route.depth⟩
      else if r.route.depth < d ∧ 0 < (s.window d).used then
        { s.window d with first := (s.window d).first + 1 }
      else s.window d :=
  window_updateWindows s _ _ d hd

theorem window_remove (s : RuleStore) (place depth : Nat) {d : Nat} (hd : ValidDepth d) :
    (s.remove place depth).window d =
      if d = depth then { s.window d with used := (s.window d).used - 1 }
      else if depth < d ∧ 0 < (s.window d).used then
        { s.window d with first := (s.window d).first - 1 }
      else s.window d :=
  window_updateWindows s _ _ d hd

theorem used_insert (s : RuleStore) (r : Rule) {d : Nat} (hd : ValidDepth d) :
    ((s.insert r).window d).used = (s.window d).used + if d = r.route.depth then 1 else 0 := by
  rw [window_insert s r hd]
  split
  · rfl
  · split <;> rfl

theorem used_remove (s : RuleStore) (place depth : Nat) {d : Nat} (hd : ValidDepth d) :
    ((s.remove place depth).window d).used =
      (s.window d).used - if d = depth then 1 else 0 := by
  rw [window_remove s place depth hd]
  split
  · rfl
  · split <;> rfl

theorem filled_insert (s : RuleStore) (r : Rule) {d : Nat} (h1 : 1 ≤ d) (h2 : d ≤ 33)
    (hr : 1 ≤ r.route.depth) :
    (s.insert r).filled d = s.filled d + if r.route.depth < d then 1 else 0 := by
  induction d with
  | zero => omega
  | succ d ih =>
    rcases Nat.eq_zero_or_pos d with rfl | hpos
    · rw [if_neg (by omega)]
      rfl
    · rw [filled_succ _ hpos, filled_succ _ hpos, ih hpos (by omega),
        used_insert s r ⟨hpos, Nat.le_of_succ_le_succ h2⟩]
      split <;> split <;> split <;> omega

theorem filled_remove (s : RuleStore) (place : Nat) {depth : Nat} (hdepth : 1 ≤ depth)
    (hu : 0 < (s.window depth).used) {d : Nat} (h1 : 1 ≤ d) (h2 : d ≤ 33) :
    (s.remove place depth).filled d + (if depth < d then 1 else 0) = s.filled d := by
  induction d with
  | zero => omega
  | succ d ih =>
    rcases Nat.eq_zero_or_pos d with rfl | hpos
    · rw [if_neg (by omega)]
      rfl
    · have ih := ih hpos (by omega)
      rw [filled_succ _ hpos, filled_succ _ hpos,
        used_remove s place depth ⟨hpos, Nat.le_of_succ_le_succ h2⟩]
      rcases Nat.lt_trichotomy d depth with hlt | rfl | hgt
      · rw [if_neg (by omega)] at ih
        rw [if_neg (Nat.ne_of_lt hlt), if_neg (by omega)]
        omega
      · rw [if_neg (by omega)] at ih
        rw [if_pos rfl, if_pos (by omega)]
        omega
      · rw [if_pos hgt] at ih
        rw [if_neg (Nat.ne_of_gt hgt), if_pos (by omega)]
        omega

theorem size_insert (s : RuleStore) (r : Rule) (hr : ValidDepth r.route.depth) :
    (s.insert r).size = s.size + 1 := by
  have hlt : r.route.depth < 33 := Nat.lt_succ_of_le hr.2
  rw [size_eq_filled, size_eq_filled, filled_insert s r (by omega) (by omega) hr.1, if_pos hlt]

theorem size_remove (s : RuleStore) (place : Nat) {depth : Nat} (hdepth : ValidDepth depth)
    (hu : 0 < (s.window depth).used) : (s.remove place depth).size + 1 = s.size := by
  have hlt : depth < 33 := Nat.lt_succ_of_le hdepth.2
  have h := filled_remove s place hdepth.1 hu (d := 33) (by omega) (by omega)
  rwa [if_pos hlt] at h

theorem size_setNextHop (s : RuleStore) (place nextHop : Nat) :
    (s.setNextHop place nextHop).size = s.size := rfl

/-- One more rule keeps the windows packed. -/
theorem Packed.insert {s : RuleStore} (h : s.Packed) {r : Rule} (hr : ValidDepth r.route.depth)
    (hroom : s.size < s.capacity) : (s.insert r).Packed := by
  refine ⟨fun {d} hd hu => ?_, ?_⟩
  · have hle : d ≤ 33 := Nat.le_succ_of_le hd.2
    rw [filled_insert s r hd.1 hle hr.1]
    rw [used_insert s r hd] at hu
    rw [window_insert s r hd]
    by_cases hdr : d = r.route.depth
    · subst hdr
      rw [if_pos rfl, if_neg (Nat.lt_irrefl _), Nat.add_zero]
      by_cases hpos : 0 < (s.window r.route.depth).used
      · exact (if_pos hpos).trans (h.first hd hpos)
      · refine (if_neg hpos).trans ?_
        rw [h.placeFor_eq hd]
        omega
    · rw [if_neg hdr] at hu ⊢
      split
      · next hlt =>
        rw [if_pos hlt.1]
        exact congrArg (· + 1) (h.first hd hlt.2)
      · next hlt =>
        rw [if_neg (by omega), Nat.add_zero]
        exact h.first hd hu
  · rw [size_insert s r hr, capacity_insert]
    exact hroom

/-- One rule less keeps the windows packed. -/
theorem Packed.remove {s : RuleStore} (h : s.Packed) (place : Nat) {depth : Nat}
    (hdepth : ValidDepth depth) (hu : 0 < (s.window depth).used) :
    (s.remove place depth).Packed := by
  refine ⟨fun {d} hd hpos => ?_, ?_⟩
  · have hle : d ≤ 33 := Nat.le_succ_of_le hd.2
    have hfilled := filled_remove s place hdepth.1 hu hd.1 hle
    rw [used_remove s place depth hd] at hpos
    rw [window_remove s place depth hd]
    by_cases hdd : d = depth
    · rw [if_pos hdd] at hpos ⊢
      rw [if_neg (by omega), Nat.add_zero] at hfilled
      rw [hfilled]
      exact h.first hd (by omega)
    · rw [if_neg hdd] at hpos ⊢
      split
      · next hlt =>
        rw [if_pos hlt.1] at hfilled
        show (s.window d).first - 1 = _
        rw [h.first hd hlt.2, ← hfilled, Nat.add_sub_cancel]
      · next hlt =>
        rw [if_neg (by omega), Nat.add_zero] at hfilled
        rw [hfilled]
        exact h.first hd hpos
  · have hsize := size_remove s place hdepth hu
    have hfits := h.fits
    rw [capacity_remove]
    omega

theorem Packed.setNextHop {s : RuleStore} (h : s.Packed) (place nextHop : Nat) :
    (s.setNextHop place nextHop).Packed := by
  refine ⟨h.first, ?_⟩
  rw [capacity_setNextHop]
  exact h.fits

end RuleStore

end Dir248
