import Dir248.Proofs.Store.Windows

/-!
# The order of the rules

An insertion moves one rule of every deeper window and a removal moves it back, each by a
chain of copies in the shared array. No copy of a chain reads or writes a place that an
earlier one wrote, so every target ends up with what its source held before the chain
began; the order of each window follows from that.

* **`getD_foldl_of_mem`**, **`getD_foldl_of_ne`** — a chain of copies, place by place.
* **`rulesAt_insert_self`**, **`rulesAt_insert_of_gt`** — the new rule comes last in its window,
  and every deeper window sends its first rule to its end.
* **`rulesAt_remove_self`**, **`rulesAt_remove_of_gt`** — the last rule of the window takes the
  place of the one that goes, and every deeper window takes its last rule to its front.
* **`rulesAt_insert_of_lt`**, **`rulesAt_remove_of_lt`** — shallower windows stay.
-/

namespace Dir248

namespace RuleStore

/-! ### Chains of copies -/

/-- No later copy reads or writes what an earlier one wrote. -/
def Apart (ms : List Move) : Prop :=
  ms.Pairwise fun m n => m.target ≠ n.source ∧ m.target ≠ n.target

theorem getD_set_self (cells : Array Cell) {i : Nat} (h : i < cells.size) (c : Cell) :
    (cells.setIfInBounds i c).getD i {} = c := by
  rw [Array.getD_eq_getD_getElem?, Array.getElem?_setIfInBounds_self_of_lt h]
  rfl

theorem getD_set_of_ne (cells : Array Cell) {i j : Nat} (h : i ≠ j) (c : Cell) :
    (cells.setIfInBounds i c).getD j {} = cells.getD j {} := by
  rw [Array.getD_eq_getD_getElem?, Array.getElem?_setIfInBounds_ne h,
    ← Array.getD_eq_getD_getElem?]

theorem getD_move_self (cells : Array Cell) (m : Move) (h : m.target < cells.size) :
    (move cells m).getD m.target {} = cells.getD m.source {} := getD_set_self cells h _

theorem getD_move_of_ne (cells : Array Cell) (m : Move) {i : Nat} (h : m.target ≠ i) :
    (move cells m).getD i {} = cells.getD i {} := getD_set_of_ne cells h _

theorem getD_foldl_of_ne (ms : List Move) (cells : Array Cell) {i : Nat}
    (h : ∀ m ∈ ms, m.target ≠ i) : (ms.foldl move cells).getD i {} = cells.getD i {} := by
  induction ms generalizing cells with
  | nil => rfl
  | cons m ms ih =>
    rw [List.foldl_cons, ih _ fun n hn => h n (List.mem_cons_of_mem m hn),
      getD_move_of_ne _ _ (h m List.mem_cons_self)]

theorem getD_foldl_of_mem {ms : List Move} (hsep : Apart ms) (cells : Array Cell) {m : Move}
    (hm : m ∈ ms) (hin : m.target < cells.size) :
    (ms.foldl move cells).getD m.target {} = cells.getD m.source {} := by
  induction ms generalizing cells with
  | nil => cases hm
  | cons n ms ih =>
    obtain ⟨hhead, htail⟩ := List.pairwise_cons.mp hsep
    rw [List.foldl_cons]
    rcases List.mem_cons.mp hm with rfl | hm
    · rw [getD_foldl_of_ne _ _ fun k hk => Ne.symm (hhead k hk).2, getD_move_self _ _ hin]
    · have hsize : (move cells n).size = cells.size := Array.size_setIfInBounds
      rw [ih htail _ hm (by rw [hsize]; exact hin), getD_move_of_ne _ _ (hhead m hm).1]

/-! ### The chains of a change -/

section Chains

variable {s : RuleStore}

/-- The depths whose windows a change at `depth` moves. -/
theorem mem_deeper (s : RuleStore) (depth d : Nat) :
    d ∈ (depths.filter fun d => depth < d ∧ 0 < (s.window d).used) ↔
      ValidDepth d ∧ depth < d ∧ 0 < (s.window d).used := by
  rw [List.mem_filter, mem_depths, decide_eq_true_iff]

theorem mem_openingMoves (s : RuleStore) (depth : Nat) (m : Move) :
    m ∈ s.openingMoves depth ↔ ∃ d, (ValidDepth d ∧ depth < d ∧ 0 < (s.window d).used) ∧
      ⟨(s.window d).first, (s.window d).stop⟩ = m := by
  simp only [openingMoves, List.mem_reverse, List.mem_map, mem_deeper]

theorem mem_closingMoves (s : RuleStore) (depth : Nat) (m : Move) :
    m ∈ s.closingMoves depth ↔ ∃ d, (ValidDepth d ∧ depth < d ∧ 0 < (s.window d).used) ∧
      ⟨(s.window d).stop - 1, (s.window d).first - 1⟩ = m := by
  simp only [closingMoves, List.mem_map, mem_deeper]

theorem pairwise_deeper (s : RuleStore) (depth : Nat) :
    (depths.filter fun d => depth < d ∧ 0 < (s.window d).used).Pairwise fun d e =>
      (ValidDepth d ∧ depth < d ∧ 0 < (s.window d).used) ∧
        (ValidDepth e ∧ depth < e ∧ 0 < (s.window e).used) ∧ d < e := by
  have hlt := List.Pairwise.filter (fun d => depth < d ∧ 0 < (s.window d).used)
    (List.pairwise_lt_range' (s := 1) (n := 32))
  exact hlt.imp_of_mem fun hd he hde =>
    ⟨(mem_deeper s depth _).mp hd, (mem_deeper s depth _).mp he, hde⟩

theorem Packed.apart_openingMoves (h : s.Packed) (depth : Nat) : Apart (s.openingMoves depth) := by
  rw [Apart, openingMoves, List.pairwise_reverse, List.pairwise_map]
  refine (pairwise_deeper s depth).imp ?_
  rintro d e ⟨⟨hd, -, hud⟩, ⟨he, -, hue⟩, hde⟩
  have hle := h.stop_le_first hd he hde hud hue
  simp only [Window.stop] at hle ⊢
  omega

theorem Packed.apart_closingMoves (h : s.Packed) {depth : Nat} (hdepth : ValidDepth depth)
    (hu : 0 < (s.window depth).used) : Apart (s.closingMoves depth) := by
  rw [Apart, closingMoves, List.pairwise_map]
  refine (pairwise_deeper s depth).imp ?_
  rintro d e ⟨⟨hd, hlt, hud⟩, ⟨he, -, hue⟩, hde⟩
  have hfirst := h.stop_le_first hdepth hd hlt hu hud
  have hle := h.stop_le_first hd he hde hud hue
  simp only [Window.stop] at hfirst hle ⊢
  omega

/-! ### The cells after an insertion -/

/-- Only the place of the new rule and the places behind deeper windows are written. -/
theorem cell_insert_of_ne (s : RuleStore) (r : Rule) {i : Nat}
    (hplace : s.placeFor r.route.depth ≠ i) (hstop : ∀ d, ValidDepth d → r.route.depth < d →
      0 < (s.window d).used → (s.window d).stop ≠ i) : (s.insert r).cell i = s.cell i := by
  refine (getD_set_of_ne _ hplace _).trans (getD_foldl_of_ne _ _ fun m hm => ?_)
  obtain ⟨d, ⟨hd, hlt, hu⟩, rfl⟩ := (mem_openingMoves ..).mp hm
  exact hstop d hd hlt hu

theorem cell_insert_place (s : RuleStore) (r : Rule)
    (hroom : s.placeFor r.route.depth < s.capacity) :
    (s.insert r).cell (s.placeFor r.route.depth) = ⟨r.route.base, r.nextHop⟩ := by
  have hsize : s.placeFor r.route.depth <
      ((s.openingMoves r.route.depth).foldl move s.cells).size := by
    rw [capacity_foldl_move]
    exact hroom
  exact getD_set_self _ hsize _

/-- The place behind a deeper window takes the window's first rule. -/
theorem Packed.cell_insert_stop (h : s.Packed) {r : Rule} (hr : ValidDepth r.route.depth)
    (hroom : s.size < s.capacity) {d : Nat} (hd : ValidDepth d) (hlt : r.route.depth < d)
    (hu : 0 < (s.window d).used) :
    (s.insert r).cell (s.window d).stop = s.cell (s.window d).first := by
  have hplace : s.placeFor r.route.depth < (s.window d).stop := by
    rw [h.placeFor_eq hr, h.stop hd hu, filled_succ s hd.1]
    have := filled_succ_le s hr.1 hlt
    omega
  have hstop : (s.window d).stop < s.cells.size := by
    have hle : d + 1 ≤ 33 := Nat.succ_le_succ hd.2
    rw [h.stop hd hu]
    exact Nat.lt_of_le_of_lt (filled_mono s (by omega) hle) hroom
  exact (getD_set_of_ne _ (Nat.ne_of_lt hplace) _).trans
    (getD_foldl_of_mem (m := ⟨(s.window d).first, (s.window d).stop⟩)
      (h.apart_openingMoves _) _ ((mem_openingMoves ..).mpr ⟨d, ⟨hd, hlt, hu⟩, rfl⟩) hstop)

/-! ### The cells after a removal -/

/-- Only the place of the rule that goes and the places in front of deeper windows are
written. -/
theorem cell_remove_of_ne (s : RuleStore) {place depth i : Nat} (hplace : place ≠ i)
    (hfirst : ∀ d, ValidDepth d → depth < d → 0 < (s.window d).used →
      (s.window d).first - 1 ≠ i) : (s.remove place depth).cell i = s.cell i := by
  refine (getD_foldl_of_ne _ _ fun m hm => ?_).trans (getD_set_of_ne _ hplace _)
  obtain ⟨d, ⟨hd, hlt, hu⟩, rfl⟩ := (mem_closingMoves ..).mp hm
  exact hfirst d hd hlt hu

/-- The last rule of the window takes the place of the one that goes. -/
theorem cell_remove_place (s : RuleStore) {place depth : Nat} (hin : place < s.capacity)
    (hfirst : ∀ d, ValidDepth d → depth < d → 0 < (s.window d).used →
      (s.window d).first - 1 ≠ place) :
    (s.remove place depth).cell place = s.cell ((s.window depth).stop - 1) := by
  refine (getD_foldl_of_ne _ _ fun m hm => ?_).trans (getD_set_self _ hin _)
  obtain ⟨d, ⟨hd, hlt, hu⟩, rfl⟩ := (mem_closingMoves ..).mp hm
  exact hfirst d hd hlt hu

/-- The place in front of a deeper window takes the window's last rule. -/
theorem Packed.cell_remove_first (h : s.Packed) {depth place : Nat} (hdepth : ValidDepth depth)
    (hplace : place ∈ (s.window depth).places) {d : Nat} (hd : ValidDepth d) (hlt : depth < d)
    (hu : 0 < (s.window d).used) :
    (s.remove place depth).cell ((s.window d).first - 1) = s.cell ((s.window d).stop - 1) := by
  obtain ⟨h1, h2⟩ := (Window.mem_places _ _).mp hplace
  have hud : 0 < (s.window depth).used := by
    simp only [Window.stop] at h2
    omega
  have hle := h.stop_le_first hdepth hd hlt hud hu
  have hcap := h.stop_le_capacity hd hu
  simp only [Window.stop] at h2 hle hcap ⊢
  have hne : place ≠ (s.window d).first + (s.window d).used - 1 := by omega
  have hin : (s.window d).first - 1 < (s.cells.setIfInBounds place
      (s.cell ((s.window depth).stop - 1))).size := by
    rw [Array.size_setIfInBounds]
    show _ < s.capacity
    omega
  exact (getD_foldl_of_mem (m := ⟨(s.window d).stop - 1, (s.window d).first - 1⟩)
    (h.apart_closingMoves hdepth hud) _ ((mem_closingMoves ..).mpr ⟨d, ⟨hd, hlt, hu⟩, rfl⟩)
    hin).trans (getD_set_of_ne _ hne _)

end Chains

/-! ### The rules of a window -/

/-- The rule at a place of the window of a depth. -/
def ruleAt (s : RuleStore) (depth place : Nat) : Rule :=
  ⟨⟨(s.cell place).base, depth⟩, (s.cell place).nextHop⟩

theorem rulesAt_eq_map (s : RuleStore) (depth : Nat) :
    s.rulesAt depth = (s.window depth).places.map (s.ruleAt depth) := rfl

theorem length_rulesAt (s : RuleStore) (depth : Nat) :
    (s.rulesAt depth).length = (s.window depth).used := by
  rw [rulesAt_eq_map, List.length_map, Window.places, List.length_range']

theorem used_pos_of_mem {w : Window} {i : Nat} (h : i ∈ w.places) : 0 < w.used := by
  have hi := (Window.mem_places _ _).mp h
  simp only [Window.stop] at hi
  omega

/-- The rules of a window stand in the order of their places. -/
theorem getElem?_rulesAt {s : RuleStore} {depth place : Nat}
    (hplace : place ∈ (s.window depth).places) :
    (s.rulesAt depth)[place - (s.window depth).first]? = some (s.ruleAt depth place) := by
  obtain ⟨hfirst, hstop⟩ := (Window.mem_places _ _).mp hplace
  have hlt : place - (s.window depth).first < (s.window depth).used := by
    simp only [Window.stop] at hstop
    omega
  rw [rulesAt_eq_map, List.getElem?_map, Window.places, List.getElem?_range' hlt, Option.map_some,
    Nat.one_mul, Nat.add_sub_cancel' hfirst]

theorem getLast?_rulesAt {s : RuleStore} {depth : Nat} (hu : 0 < (s.window depth).used) :
    (s.rulesAt depth).getLast? = some (s.ruleAt depth ((s.window depth).stop - 1)) := by
  have hlast : (s.window depth).stop - 1 ∈ (s.window depth).places := by
    rw [Window.mem_places, Window.stop]
    omega
  rw [List.getLast?_eq_getElem?, length_rulesAt, ← getElem?_rulesAt hlast, Window.stop]
  congr 1
  omega

/-- The first rule of a list goes to its end. -/
def firstToBack {α : Type} (l : List α) : List α := l.drop 1 ++ l.take 1

/-- The last rule of a list goes to its front. -/
def lastToFront {α : Type} (l : List α) : List α := l.drop (l.length - 1) ++ l.take (l.length - 1)

theorem perm_firstToBack {α : Type} (l : List α) : (firstToBack l).Perm l :=
  List.perm_append_comm.trans (.of_eq (List.take_append_drop 1 l))

theorem perm_lastToFront {α : Type} (l : List α) : (lastToFront l).Perm l :=
  List.perm_append_comm.trans (.of_eq (List.take_append_drop (l.length - 1) l))

@[simp] theorem firstToBack_cons {α : Type} (x : α) (l : List α) :
    firstToBack (x :: l) = l ++ [x] := rfl

@[simp] theorem lastToFront_append_singleton {α : Type} (l : List α) (x : α) :
    lastToFront (l ++ [x]) = x :: l := by
  simp [lastToFront]

section Order

variable {s : RuleStore}

/-- Where a window and its cells stay, so do its rules. -/
theorem rulesAt_congr {s s' : RuleStore} {d : Nat} (hw : s'.window d = s.window d)
    (hc : ∀ i ∈ (s.window d).places, s'.cell i = s.cell i) : s'.rulesAt d = s.rulesAt d := by
  rw [rulesAt_eq_map, rulesAt_eq_map, hw]
  refine List.map_congr_left fun i hi => ?_
  rw [ruleAt, ruleAt, hc i hi]

theorem rulesAt_of_used_eq_zero {d : Nat} (h : (s.window d).used = 0) : s.rulesAt d = [] := by
  rw [← List.length_eq_zero_iff, length_rulesAt, h]

/-! ### Insertion -/

/-- The place behind a window is none of another window, unless that one begins there. -/
theorem Packed.stop_ne_of_mem (h : s.Packed) {d e i : Nat} (hd : ValidDepth d) (he : ValidDepth e)
    (hue : 0 < (s.window e).used) (hi : i ∈ (s.window d).places)
    (hfirst : i ≠ (s.window d).first ∨ d ≤ e) : (s.window e).stop ≠ i := by
  have hud := used_pos_of_mem hi
  obtain ⟨h1, h2⟩ := (Window.mem_places _ _).mp hi
  rcases Nat.lt_trichotomy e d with hed | rfl | hde
  · have := h.stop_le_first he hd hed hue hud
    omega
  · omega
  · have := h.stop_le_first hd he hde hud hue
    simp only [Window.stop] at h2 this ⊢
    omega

theorem Packed.rulesAt_insert_of_lt (h : s.Packed) {r : Rule} (hr : ValidDepth r.route.depth)
    {d : Nat} (hd : ValidDepth d) (hlt : d < r.route.depth) :
    (s.insert r).rulesAt d = s.rulesAt d := by
  have hw := window_insert s r hd
  rw [if_neg (Nat.ne_of_lt hlt), if_neg (by omega)] at hw
  refine rulesAt_congr hw fun i hi => cell_insert_of_ne s r ?_ fun e he hre hue =>
    h.stop_ne_of_mem hd he hue hi (.inr (by omega))
  have hi' := ((Window.mem_places _ _).mp hi).2
  have hle := filled_succ_le s hd.1 hlt
  rw [h.stop hd (used_pos_of_mem hi), filled_succ s hd.1] at hi'
  rw [h.placeFor_eq hr]
  omega

theorem Packed.rulesAt_insert_self (h : s.Packed) {r : Rule} (hr : ValidDepth r.route.depth)
    (hroom : s.size < s.capacity) :
    (s.insert r).rulesAt r.route.depth = s.rulesAt r.route.depth ++ [r] := by
  have hplace := h.placeFor_eq hr
  have hw := window_insert s r hr
  rw [if_pos rfl] at hw
  have hkept : ∀ i ∈ (s.window r.route.depth).places,
      (s.insert r).ruleAt r.route.depth i = s.ruleAt r.route.depth i := by
    intro i hi
    have hi' := ((Window.mem_places _ _).mp hi).2
    rw [h.stop hr (used_pos_of_mem hi), filled_succ s hr.1] at hi'
    rw [ruleAt, ruleAt, cell_insert_of_ne s r (by omega) fun e he hre hue =>
      h.stop_ne_of_mem hr he hue hi (.inr (Nat.le_of_lt hre))]
  have hnew : (s.insert r).ruleAt r.route.depth (s.placeFor r.route.depth) = r := by
    have hcap : s.placeFor r.route.depth < s.capacity := by
      have hle : r.route.depth + 1 ≤ 33 := Nat.succ_le_succ hr.2
      rw [hplace, ← filled_succ s hr.1]
      exact Nat.lt_of_le_of_lt (filled_mono s (by omega) hle) hroom
    rw [ruleAt, cell_insert_place s r hcap]
  have hplaces : ((s.insert r).window r.route.depth).places =
      (s.window r.route.depth).places ++ [s.placeFor r.route.depth] := by
    rw [hw, Window.places, Window.places, List.range'_concat]
    by_cases hu : 0 < (s.window r.route.depth).used
    · rw [if_pos hu, hplace, ← h.first hr hu]
      simp
    · rw [if_neg hu, Nat.eq_zero_of_not_pos hu]
      simp
  rw [rulesAt_eq_map, hplaces, List.map_append, List.map_cons, List.map_nil, hnew,
    List.map_congr_left hkept]
  rfl

theorem Packed.rulesAt_insert_of_gt (h : s.Packed) {r : Rule} (hr : ValidDepth r.route.depth)
    (hroom : s.size < s.capacity) {d : Nat} (hd : ValidDepth d) (hgt : r.route.depth < d) :
    (s.insert r).rulesAt d = firstToBack (s.rulesAt d) := by
  have hw := window_insert s r hd
  rw [if_neg (Nat.ne_of_gt hgt)] at hw
  rcases Nat.eq_zero_or_pos (s.window d).used with hu | hu
  · rw [if_neg (by omega)] at hw
    rw [rulesAt_of_used_eq_zero hu, rulesAt_of_used_eq_zero (by rw [hw]; exact hu)]
    rfl
  · rw [if_pos ⟨hgt, hu⟩] at hw
    obtain ⟨n, hn⟩ : ∃ n, (s.window d).used = n + 1 := ⟨(s.window d).used - 1, by omega⟩
    have hold : (s.window d).places =
        (s.window d).first :: List.range' ((s.window d).first + 1) n := by
      rw [Window.places, hn, List.range'_succ]
    have hplaces : ((s.insert r).window d).places =
        List.range' ((s.window d).first + 1) n ++ [(s.window d).stop] := by
      rw [hw, Window.places]
      show List.range' ((s.window d).first + 1) (s.window d).used = _
      rw [Window.stop, hn, List.range'_concat, Nat.one_mul, Nat.add_assoc, Nat.add_comm 1 n]
    have hkept : ∀ i ∈ List.range' ((s.window d).first + 1) n,
        (s.insert r).ruleAt d i = s.ruleAt d i := by
      intro i hi
      have hmem : i ∈ (s.window d).places := by
        rw [hold]
        exact List.mem_cons_of_mem _ hi
      have hlow := (List.mem_range'_1.mp hi).1
      have hfirst := h.first hd hu
      have hle := filled_succ_le s hr.1 hgt
      have hplace := h.placeFor_eq hr
      rw [ruleAt, ruleAt, cell_insert_of_ne s r (by omega) fun e he hre hue =>
        h.stop_ne_of_mem hd he hue hmem (.inl (by omega))]
    have hmoved : (s.insert r).ruleAt d (s.window d).stop = s.ruleAt d (s.window d).first := by
      rw [ruleAt, ruleAt, h.cell_insert_stop hr hroom hd hgt hu]
    rw [rulesAt_eq_map, rulesAt_eq_map, hplaces, hold, List.map_append, List.map_cons,
      List.map_nil, List.map_cons, firstToBack_cons, hmoved, List.map_congr_left hkept]

/-! ### Removal -/

/-- The place in front of a window is none of another window, unless that one ends there. -/
theorem Packed.pred_first_ne_of_mem (h : s.Packed) {d e i : Nat} (hd : ValidDepth d)
    (he : ValidDepth e) (hue : 0 < (s.window e).used) (hpos : 0 < (s.window e).first)
    (hi : i ∈ (s.window d).places) (hlast : i + 1 ≠ (s.window d).stop ∨ e ≤ d) :
    (s.window e).first - 1 ≠ i := by
  have hud := used_pos_of_mem hi
  obtain ⟨h1, h2⟩ := (Window.mem_places _ _).mp hi
  rcases Nat.lt_trichotomy e d with hed | rfl | hde
  · have := h.stop_le_first he hd hed hue hud
    simp only [Window.stop] at this
    omega
  · omega
  · have := h.stop_le_first hd he hde hud hue
    omega

/-- A window behind one that holds rules does not begin at the start of the array. -/
theorem Packed.first_pos (h : s.Packed) {d e : Nat} (hd : ValidDepth d) (he : ValidDepth e)
    (hde : d < e) (hud : 0 < (s.window d).used) (hue : 0 < (s.window e).used) :
    0 < (s.window e).first := by
  have := h.stop_le_first hd he hde hud hue
  simp only [Window.stop] at this
  omega

theorem Packed.rulesAt_remove_of_lt (h : s.Packed) {depth place : Nat} (hdepth : ValidDepth depth)
    (hplace : place ∈ (s.window depth).places) {d : Nat} (hd : ValidDepth d) (hlt : d < depth) :
    (s.remove place depth).rulesAt d = s.rulesAt d := by
  have hu := used_pos_of_mem hplace
  have hw := window_remove s place depth hd
  rw [if_neg (Nat.ne_of_lt hlt), if_neg (by omega)] at hw
  refine rulesAt_congr hw fun i hi => ?_
  have hbefore : i < (s.window depth).first := by
    have hi' := ((Window.mem_places _ _).mp hi).2
    have := h.stop_le_first hd hdepth hlt (used_pos_of_mem hi) hu
    omega
  have hp := (Window.mem_places _ _).mp hplace
  refine cell_remove_of_ne s (by omega) fun e he hde hue => ?_
  have := h.stop_le_first hdepth he hde hu hue
  simp only [Window.stop] at hp this
  omega

/-- The last rule of the window takes the place of the one that goes. -/
theorem Packed.rulesAt_remove_self (h : s.Packed) {depth place : Nat} (hdepth : ValidDepth depth)
    (hplace : place ∈ (s.window depth).places) :
    (s.remove place depth).rulesAt depth =
      ((s.rulesAt depth).set (place - (s.window depth).first)
        (s.ruleAt depth ((s.window depth).stop - 1))).dropLast := by
  have hu := used_pos_of_mem hplace
  obtain ⟨h1, h2⟩ := (Window.mem_places _ _).mp hplace
  have hw := window_remove s place depth hdepth
  rw [if_pos rfl] at hw
  have hpos : ∀ e, ValidDepth e → depth < e → 0 < (s.window e).used → 0 < (s.window e).first :=
    fun e he hlt hue => h.first_pos hdepth he hlt hu hue
  refine List.ext_getElem ?_ fun j hj hj' => ?_
  · rw [List.length_dropLast, List.length_set, length_rulesAt, length_rulesAt, hw]
  · rw [length_rulesAt, hw] at hj
    replace hj : j < (s.window depth).used - 1 := hj
    have hnew : ((s.remove place depth).rulesAt depth)[j] =
        (s.remove place depth).ruleAt depth ((s.window depth).first + j) := by
      simp only [rulesAt_eq_map, hw, Window.places, List.getElem_map, List.getElem_range',
        Nat.one_mul]
    have hmem : (s.window depth).first + j ∈ (s.window depth).places :=
      (Window.mem_places _ _).mpr ⟨Nat.le_add_right .., by simp only [Window.stop]; omega⟩
    have hne : ∀ e, ValidDepth e → depth < e → 0 < (s.window e).used →
        (s.window e).first - 1 ≠ (s.window depth).first + j := fun e he hlt hue =>
      h.pred_first_ne_of_mem hdepth he hue (hpos e he hlt hue) hmem
        (.inl (by simp only [Window.stop]; omega))
    rw [hnew, List.getElem_dropLast, List.getElem_set]
    split
    · next heq =>
      have hp : (s.window depth).first + j = place := by omega
      have hin : place < s.capacity :=
        Nat.lt_of_lt_of_le h2 (h.stop_le_capacity hdepth hu)
      rw [ruleAt, ruleAt, hp, cell_remove_place s hin fun e he hlt hue => hp ▸ hne e he hlt hue]
    · next hneq =>
      rw [ruleAt, cell_remove_of_ne s (by omega) hne]
      simp only [rulesAt_eq_map, Window.places, List.getElem_map, List.getElem_range', Nat.one_mul]
      rfl

theorem Packed.rulesAt_remove_of_gt (h : s.Packed) {depth place : Nat} (hdepth : ValidDepth depth)
    (hplace : place ∈ (s.window depth).places) {d : Nat} (hd : ValidDepth d) (hgt : depth < d) :
    (s.remove place depth).rulesAt d = lastToFront (s.rulesAt d) := by
  have hu := used_pos_of_mem hplace
  have hw := window_remove s place depth hd
  rw [if_neg (Nat.ne_of_gt hgt)] at hw
  rcases Nat.eq_zero_or_pos (s.window d).used with hud | hud
  · rw [if_neg (by omega)] at hw
    rw [rulesAt_of_used_eq_zero hud, rulesAt_of_used_eq_zero (by rw [hw]; exact hud)]
    rfl
  · rw [if_pos ⟨hgt, hud⟩] at hw
    obtain ⟨n, hn⟩ : ∃ n, (s.window d).used = n + 1 := ⟨(s.window d).used - 1, by omega⟩
    have hpos := h.first_pos hdepth hd hgt hu hud
    have hold : (s.window d).places =
        List.range' (s.window d).first n ++ [(s.window d).stop - 1] := by
      rw [Window.places, Window.stop, hn, List.range'_concat, Nat.one_mul]
      rfl
    have hplaces : ((s.remove place depth).window d).places =
        ((s.window d).first - 1) :: List.range' (s.window d).first n := by
      rw [hw, Window.places]
      show List.range' ((s.window d).first - 1) (s.window d).used = _
      rw [hn, List.range'_succ, Nat.sub_add_cancel hpos]
    have hkept : ∀ i ∈ List.range' (s.window d).first n,
        (s.remove place depth).ruleAt d i = s.ruleAt d i := by
      intro i hi
      obtain ⟨hlow, hhigh⟩ := List.mem_range'_1.mp hi
      have hmem : i ∈ (s.window d).places := by
        rw [hold]
        exact List.mem_append_left _ hi
      have hbehind := h.stop_le_first hdepth hd hgt hu hud
      have hp := ((Window.mem_places _ _).mp hplace).2
      rw [ruleAt, ruleAt, cell_remove_of_ne s (by omega) fun e he hlt hue =>
        h.pred_first_ne_of_mem hd he hue (h.first_pos hdepth he hlt hu hue) hmem
          (.inl (by simp only [Window.stop]; omega))]
    have hmoved : (s.remove place depth).ruleAt d ((s.window d).first - 1) =
        s.ruleAt d ((s.window d).stop - 1) := by
      rw [ruleAt, ruleAt, h.cell_remove_first hdepth hplace hd hgt hud]
    rw [rulesAt_eq_map, rulesAt_eq_map, hplaces, hold, List.map_append, List.map_cons,
      List.map_cons, List.map_nil, lastToFront_append_singleton, hmoved, List.map_congr_left hkept]

/-! ### A change of a next hop -/

theorem ruleAt_setNextHop (s : RuleStore) {place : Nat} (hin : place < s.capacity)
    (nextHop d i : Nat) : (s.setNextHop place nextHop).ruleAt d i =
      if i = place then { s.ruleAt d i with nextHop } else s.ruleAt d i := by
  have hcell : (s.setNextHop place nextHop).cell i =
      if i = place then { s.cell place with nextHop } else s.cell i := by
    split
    · next heq =>
      rw [heq]
      exact getD_set_self _ hin _
    · next hne => exact getD_set_of_ne _ (Ne.symm hne) _
  rw [ruleAt, hcell]
  split
  · next heq =>
    rw [heq]
    rfl
  · rfl

theorem rulesAt_setNextHop (s : RuleStore) {place : Nat} (hin : place < s.capacity) (nextHop : Nat)
    (d : Nat) : (s.setNextHop place nextHop).rulesAt d =
      (s.window d).places.map fun i =>
        if i = place then { s.ruleAt d i with nextHop } else s.ruleAt d i := by
  rw [rulesAt_eq_map]
  exact List.map_congr_left fun i _ => ruleAt_setNextHop s hin nextHop d i

/-- No base changes with a next hop; a place outside the array has no next hop to change. -/
theorem base_setNextHop (s : RuleStore) (place nextHop i : Nat) :
    ((s.setNextHop place nextHop).cell i).base = (s.cell i).base := by
  rcases Nat.lt_or_ge place s.capacity with hin | hout
  · have hrule := congrArg (fun r => r.route.base) (ruleAt_setNextHop s hin nextHop 0 i)
    dsimp only at hrule
    split at hrule <;> exact hrule
  · show ((s.cells.setIfInBounds place _).getD i {}).base = _
    rw [Array.setIfInBounds_eq_of_size_le hout]
    rfl

theorem routes_setNextHop (s : RuleStore) (place nextHop d : Nat) :
    ((s.setNextHop place nextHop).rulesAt d).map Rule.route = (s.rulesAt d).map Rule.route := by
  rw [rulesAt_eq_map, rulesAt_eq_map, List.map_map, List.map_map]
  refine List.map_congr_left fun i _ => ?_
  exact congrArg (Prefix.mk · d) (base_setNextHop s place nextHop i)

end Order

end RuleStore

end Dir248
