import Dir248.Proofs.Store.Additions

/-!
# The layout of a store that anything was called on

The calls of a store do not ask whether a prefix is clipped to its depth, and a next hop is put
back at any place. The array stays packed all the same: the windows that hold rules follow each
other without gaps, the windows between them say nothing, and no prefix is stored twice.

* **`StoreCall`**, **`RuleStore.serve`** — the calls on a store.
* **`Abut`**, **`Packed.abut`** — windows that begin where the one before ends.
* **`Tidy.serve`**, **`Tidy.foldl_serve`** — every call keeps the windows packed and the prefixes
  apart.
* **`Tidy.routes_serve`**, **`Tidy.routes_foldl_serve`** — a prefix is stored only if it was added.
* **`windows_abut`** — the layout after every list of calls.
-/

namespace Dir248

/-! ### Calls on a store -/

/-- A prefix of a valid depth, with any base. -/
abbrev ValidPrefix := { p : Prefix // ValidDepth p.depth }

/-- A call on a rule store. Every rule of a window is found under its prefix, so to delete what
was found is to delete any rule. -/
inductive StoreCall where
  /-- Adds a rule, or changes the next hop of the rule of that prefix. -/
  | add (p : ValidPrefix) (nextHop : Nat)
  /-- Finds the rule of a prefix and removes it. -/
  | delete (p : ValidPrefix)
  /-- Puts a next hop at a place of the array, whether or not a rule sits there. -/
  | restore (place nextHop : Nat)
  /-- Removes every rule. -/
  | clear

/-- The prefix that a call adds, if it is an addition. -/
def StoreCall.adds : StoreCall → List Prefix
  | .add p _ => [p]
  | _ => []

namespace RuleStore

/-- The store after a call. A prefix that is not found changes nothing. -/
def serve (s : RuleStore) : StoreCall → RuleStore
  | .add p nextHop => (s.add ⟨p, nextHop⟩).value.state
  | .delete p => (s.find? p).elim s fun place => s.remove place p.1.depth
  | .restore place nextHop => s.setNextHop place nextHop
  | .clear => s.clear

/-! ### Windows that follow each other -/

/-- The first window begins at `start`, each other one where the one before it ends, and the last
one ends at `stop`. -/
def Abut : (start : Nat) → List Window → (stop : Nat) → Prop
  | start, [], stop => start = stop
  | start, w :: ws, stop => w.first = start ∧ Abut w.stop ws stop

theorem Abut.concat {start stop : Nat} {ws : List Window} {w : Window} (h : Abut start ws stop)
    (hw : w.first = stop) : Abut start (ws ++ [w]) w.stop := by
  induction ws generalizing start with
  | nil => exact ⟨hw.trans h.symm, rfl⟩
  | cons v ws ih => exact ⟨h.1, ih h.2⟩

variable {s : RuleStore}

/-- In a packed store the windows up to a depth that hold rules follow each other. An empty one
takes no place, wherever it claims to begin. -/
theorem Packed.abut (h : s.Packed) {n : Nat} (hn : n ≤ 32) :
    Abut 0 (((List.range' 1 n).map s.window).filter fun w => 0 < w.used) (s.filled (n + 1)) := by
  induction n with
  | zero => rfl
  | succ n ih =>
    have hd : ValidDepth (n + 1) := ⟨Nat.le_add_left 1 n, hn⟩
    have hbefore := ih (Nat.le_of_succ_le hn)
    rw [List.range'_1_concat, List.map_append, List.filter_append, Nat.add_comm 1 n]
    rcases Nat.eq_zero_or_pos (s.window (n + 1)).used with hu | hu
    · have hskip : [s.window (n + 1)].filter (fun w => 0 < w.used) = [] :=
        List.filter_cons_of_neg (by rw [hu]; decide)
      rw [filled_succ s hd.1, hu, Nat.add_zero, List.map_singleton, hskip, List.append_nil]
      exact hbefore
    · have hkeep : [s.window (n + 1)].filter (fun w => 0 < w.used) = [s.window (n + 1)] :=
        List.filter_cons_of_pos (decide_eq_true hu)
      rw [← h.stop hd hu, List.map_singleton, hkeep]
      exact hbefore.concat (h.first hd hu)

/-! ### One call -/

/-- Every call leaves the store tidy. -/
theorem Tidy.serve (h : s.Tidy) (call : StoreCall) : (s.serve call).Tidy := by
  cases call with
  | add p nextHop => exact (added_add s (r := ⟨p, nextHop⟩) p.2).tidy h p.2
  | delete p =>
    show ((s.find? p).elim s fun place => s.remove place p.1.depth).Tidy
    cases hfind : s.find? p with
    | none => exact h
    | some place => exact h.remove p.2 (find?_eq_some hfind).1
  | restore place nextHop => exact h.setNextHop place nextHop
  | clear => exact tidy_new s.capacity

theorem capacity_serve (s : RuleStore) (call : StoreCall) :
    (s.serve call).capacity = s.capacity := by
  cases call with
  | add p nextHop => exact (added_add s (r := ⟨p, nextHop⟩) p.2).capacity
  | delete p =>
    show ((s.find? p).elim s fun place => s.remove place p.1.depth).capacity = s.capacity
    cases s.find? p <;> simp
  | restore place nextHop => exact capacity_setNextHop s place nextHop
  | clear => exact capacity_clear s

/-- The prefixes of all stored rules. -/
def routes (s : RuleStore) : List Prefix := s.toList.map Rule.route

theorem mem_routes_setNextHop (place nextHop : Nat) (p : Prefix) :
    p ∈ (s.setNextHop place nextHop).routes ↔ p ∈ s.routes := by
  simp only [routes, toList, List.map_flatMap, routes_setNextHop]

theorem Added.routes_subset (h : s.Tidy) {r : Rule} (hr : ValidDepth r.route.depth)
    {out : Outcome RuleStore (Except Failure Stored)} (ha : Added s r out) {p : Prefix}
    (hp : p ∈ out.state.routes) : p ∈ s.routes ∨ p = r.route := by
  cases ha with
  | known => exact .inl hp
  | changed => exact .inl ((mem_routes_setNextHop _ _ p).mp hp)
  | full => exact .inl hp
  | fresh _ _ hroom =>
    obtain ⟨q, hq, rfl⟩ := List.mem_map.mp hp
    rcases (h.packed.mem_insert hr hroom q).mp hq with rfl | hq
    · exact .inr rfl
    · exact .inl (List.mem_map_of_mem hq)

/-- A call stores no prefix but the one it adds. -/
theorem Tidy.routes_serve (h : s.Tidy) (call : StoreCall) {p : Prefix}
    (hp : p ∈ (s.serve call).routes) : p ∈ s.routes ∨ p ∈ call.adds := by
  cases call with
  | add q nextHop =>
    exact ((added_add s (r := ⟨q, nextHop⟩) q.2).routes_subset h q.2 hp).imp_right
      List.mem_singleton.mpr
  | delete q =>
    refine .inl ?_
    replace hp : p ∈ ((s.find? q).elim s fun place => s.remove place q.1.depth).routes := hp
    cases hfind : s.find? q with
    | none => rwa [hfind] at hp
    | some place =>
      rw [hfind, Option.elim_some] at hp
      obtain ⟨r, hr, rfl⟩ := List.mem_map.mp hp
      exact List.mem_map_of_mem ((h.mem_remove q.2 (find?_eq_some hfind).1 r).mp hr).2
  | restore place nextHop => exact .inl ((mem_routes_setNextHop place nextHop p).mp hp)
  | clear =>
    obtain ⟨r, hr, -⟩ := List.mem_map.mp hp
    exact absurd hr (not_mem_toList_new s.capacity r)

/-! ### All calls -/

theorem Tidy.foldl_serve (h : s.Tidy) (calls : List StoreCall) :
    (calls.foldl RuleStore.serve s).Tidy := by
  induction calls generalizing s with
  | nil => exact h
  | cons call calls ih => exact ih (h.serve call)

theorem capacity_foldl_serve (s : RuleStore) (calls : List StoreCall) :
    (calls.foldl serve s).capacity = s.capacity := by
  induction calls generalizing s with
  | nil => rfl
  | cons call calls ih => exact (ih (s.serve call)).trans (capacity_serve s call)

/-- Whatever is stored was there at the beginning or was added. -/
theorem Tidy.routes_foldl_serve (h : s.Tidy) (calls : List StoreCall) {p : Prefix}
    (hp : p ∈ (calls.foldl RuleStore.serve s).routes) :
    p ∈ s.routes ∨ p ∈ calls.flatMap StoreCall.adds := by
  induction calls generalizing s with
  | nil => exact .inl hp
  | cons call calls ih =>
    rw [List.flatMap_cons, List.mem_append, ← or_assoc]
    exact (ih (h.serve call) hp).imp_left (h.routes_serve call)

/-- The bits of a block's base beyond its depth are zero. -/
theorem testBit_base {p : Prefix} (h : p.IsBlock) {k : Nat} (hk : k < 32 - p.depth) :
    p.base.toNat.testBit k = false := by
  rw [h.base_eq, blockSize, Nat.testBit_mul_two_pow, decide_eq_false (Nat.not_le_of_lt hk),
    Bool.false_and]

/-- After every list of calls on a store of any capacity, the windows that hold rules follow each
other from the start of the array to the number of rules, which fits the capacity. No window
holds a prefix twice, and if every prefix that was added is clipped to its depth, then so is every
one that is stored. -/
theorem windows_abut (capacity : Nat) (calls : List StoreCall) :
    let s := calls.foldl serve (new capacity)
    Abut 0 ((depths.map s.window).filter fun w => 0 < w.used) s.size ∧
    s.size ≤ s.capacity ∧ s.capacity = capacity ∧
    (∀ d, ValidDepth d → ((s.rulesAt d).map Rule.route).Nodup) ∧
    ((∀ p ∈ calls.flatMap StoreCall.adds, clip p.base p.depth = p.base) →
      ∀ d, ValidDepth d → ∀ r ∈ s.rulesAt d, ∀ k, k < 32 - d →
        r.route.base.toNat.testBit k = false) := by
  intro s
  have htidy : s.Tidy := (tidy_new capacity).foldl_serve calls
  refine ⟨htidy.packed.abut (Nat.le_refl 32), htidy.packed.fits, ?_, fun d hd => htidy.nodup hd, ?_⟩
  · exact (capacity_foldl_serve (new capacity) calls).trans (capacity_new capacity)
  · intro hclipped d hd r hr k hk
    have hdepth := depth_of_mem_rulesAt hr
    subst hdepth
    have hstored : r.route ∈ s.routes := List.mem_map_of_mem ((mem_toList s r).mpr ⟨hd, hr⟩)
    have hadded : r.route ∈ calls.flatMap StoreCall.adds := by
      refine ((tidy_new capacity).routes_foldl_serve calls hstored).resolve_left fun hmem => ?_
      obtain ⟨q, hq, -⟩ := List.mem_map.mp hmem
      exact not_mem_toList_new capacity q hq
    exact testBit_base ⟨hd, hclipped _ hadded⟩ hk

/-- A window of depth 16 that was emptied is filled again, between one of depth 8 and one of
depth 24. -/
theorem windows_abut_refilled :
    let calls : List StoreCall := [.add ⟨⟨0x0A000000, 8⟩, by decide⟩ 1,
      .add ⟨⟨0x0A010200, 24⟩, by decide⟩ 3, .add ⟨⟨0x0A010000, 16⟩, by decide⟩ 2,
      .delete ⟨⟨0x0A010000, 16⟩, by decide⟩, .restore 0 7, .add ⟨⟨0x0A020000, 16⟩, by decide⟩ 5]
    let s := calls.foldl serve (new 4)
    s.rulesAt 16 = [⟨⟨0x0A020000, 16⟩, 5⟩] ∧ (s.window 24).first = 2 ∧
      ∀ r ∈ s.rulesAt 16, ∀ k, k < 16 → r.route.base.toNat.testBit k = false := by
  intro calls s
  have hclipped : ∀ p ∈ calls.flatMap StoreCall.adds, clip p.base p.depth = p.base := by decide
  refine ⟨by decide, by decide, ?_⟩
  exact (windows_abut 4 calls).2.2.2.2 hclipped 16 (by decide)

end RuleStore

end Dir248
