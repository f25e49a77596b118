import Dir248.Proofs.Store.Layouts
import Mathlib.Order.Bounds.Basic

/-!
# The cover of a prefix is the best rule that is left

The search for a cover goes from the next shallower depth upwards, clips the address anew at
every depth and looks for a rule of exactly that block. It ends at the deepest rule around the
address that is shallower than the given depth. Every address of a prefix agrees with its base
on all these depths, so when the rule of the prefix goes, one cover is right for all of its
addresses that no deeper rule takes.

* **`RuleStore.covering?_succ`** — the search, one depth at a time.
* **`covering?_eq_some_iff`**, **`covering?_eq_none_iff`** — what an answer of the search says
  about the searches of single prefixes.
* **`covering?_of_find?`** — the answer depends on those searches alone.
* **`find?_eq_none_iff`**, **`mem_routes_of_find?`** — what those say about the stored rules.
* **`RuleStore.LongestMatch`** — the deepest of all rules around an address.
* **`Tidy.longestMatch_of_covering?`** — a rule that is the cover at the depth of a prefix is the
  longest match of the addresses that no rule of the prefix or a deeper one takes.
* **`covers_deepest`** — the answer of every search in every store, and what it is after a removal.
-/

namespace Dir248

namespace RuleStore

/-! ### The search -/

/-- The search looks at the next shallower depth first. -/
theorem covering?_succ (s : RuleStore) (a : Address) {d : Nat} (hd : 1 ≤ d) :
    s.covering? a (d + 1) =
      ((s.find? (.of a d)).map fun i => (i, d)).or (s.covering? a d) := by
  obtain ⟨k, rfl⟩ : ∃ k, d = k + 1 := ⟨d - 1, by omega⟩
  simp only [covering?, Nat.add_sub_cancel]
  rw [List.range'_1_concat, List.reverse_append, List.reverse_singleton, List.singleton_append,
    List.findSome?_cons, Nat.add_comm 1 k]
  cases s.find? (.of a (k + 1)) <;> rfl

variable {s : RuleStore} {a : Address} {depth : Nat}

/-- The search ends at the deepest depth where it finds a rule. -/
theorem covering?_eq_some_iff {i d : Nat} : s.covering? a depth = some (i, d) ↔
    (1 ≤ d ∧ d < depth) ∧ s.find? (.of a d) = some i ∧
      ∀ e, d < e → e < depth → s.find? (.of a e) = none := by
  induction depth with
  | zero => exact ⟨nofun, fun h => absurd h.1.2 (Nat.not_lt_zero d)⟩
  | succ n ih =>
    rcases Nat.eq_zero_or_pos n with rfl | hn
    · exact ⟨nofun, fun h => by omega⟩
    · rw [covering?_succ s a hn]
      cases hfind : s.find? (.of a n) with
      | some j =>
        constructor
        · intro hanswer
          obtain ⟨rfl, rfl⟩ := Prod.mk.inj (Option.some.inj hanswer)
          exact ⟨⟨hn, Nat.lt_succ_self n⟩, hfind, fun e hlow hhigh => by omega⟩
        · intro h
          obtain ⟨⟨-, hlt⟩, hfound, habove⟩ := h
          rcases Nat.lt_or_eq_of_le (Nat.le_of_lt_succ hlt) with hlt | rfl
          · exact absurd (hfind.symm.trans (habove n hlt (Nat.lt_succ_self n))) nofun
          · rw [Option.some.inj (hfind.symm.trans hfound)]
            rfl
      | none =>
        rw [Option.map_none, Option.none_or, ih]
        constructor
        · intro h
          obtain ⟨⟨hlow, hlt⟩, hfound, habove⟩ := h
          refine ⟨⟨hlow, Nat.lt_succ_of_lt hlt⟩, hfound, fun e hde hen => ?_⟩
          rcases Nat.lt_or_eq_of_le (Nat.le_of_lt_succ hen) with hen | rfl
          · exact habove e hde hen
          · exact hfind
        · intro h
          obtain ⟨⟨hlow, hlt⟩, hfound, habove⟩ := h
          have hne : d ≠ n := by
            rintro rfl
            exact absurd (hfind.symm.trans hfound) nofun
          exact ⟨⟨hlow, by omega⟩, hfound, fun e hde hen => habove e hde (Nat.lt_succ_of_lt hen)⟩

theorem covering?_eq_none_iff : s.covering? a depth = none ↔
    ∀ e, 1 ≤ e → e < depth → s.find? (.of a e) = none := by
  simp only [covering?, List.findSome?_eq_none_iff, List.mem_reverse, List.mem_range'_1,
    Option.map_eq_none_iff, and_imp]
  exact forall₂_congr fun e hlow => imp_congr_left ⟨fun h => by omega, fun h => by omega⟩

/-- Searches that go alike at all shallower depths end alike. -/
theorem covering?_of_find? {s' : RuleStore} {a' : Address}
    (h : ∀ d, 1 ≤ d → d < depth → s'.find? (.of a' d) = s.find? (.of a d)) :
    s'.covering? a' depth = s.covering? a depth := by
  unfold covering?
  rw [← List.head?_filterMap, ← List.head?_filterMap]
  refine congrArg List.head? (List.filterMap_congr fun d hd => ?_)
  obtain ⟨hlow, hhigh⟩ := List.mem_range'_1.mp (List.mem_reverse.mp hd)
  rw [h d hlow (by omega)]

/-- The base of a prefix has the covers of all its addresses. -/
theorem covering?_of_covers (s : RuleStore) {p : Prefix} {a : Address} (h : p.Covers a) :
    s.covering? p.base p.depth = s.covering? a p.depth := by
  refine covering?_of_find? fun d _ hlt => ?_
  have hblock : Prefix.of p.base d = .of a d := by
    rw [← h, Prefix.of_eq_of_le (Nat.le_of_lt hlt) (clip_clip a p.depth)]
  rw [hblock]

/-! ### The stored rules -/

theorem mem_routes_of_find? {p : Prefix} (hp : ValidDepth p.depth) {i : Nat}
    (h : s.find? p = some i) :
    s.ruleAt p.depth i ∈ s.toList ∧ (s.ruleAt p.depth i).route = p := by
  obtain ⟨hi, hrule⟩ := find?_eq_some h
  exact ⟨ruleAt_mem hp hi, congrArg Rule.route hrule⟩

/-- A search for a prefix fails only where no rule of the prefix is stored. -/
theorem find?_eq_none_iff {p : Prefix} (hp : ValidDepth p.depth) :
    s.find? p = none ↔ p ∉ s.routes := by
  constructor
  · intro hfind hmem
    obtain ⟨r, hr, rfl⟩ := List.mem_map.mp hmem
    exact find?_eq_none hfind ((mem_toList s r).mp hr).2 rfl
  · intro hmem
    refine Option.eq_none_iff_forall_ne_some.mpr fun i hfind => hmem ?_
    obtain ⟨hi, hroute⟩ := mem_routes_of_find? hp hfind
    exact List.mem_map.mpr ⟨_, hi, hroute⟩

/-- No two rules have one prefix. -/
theorem Tidy.eq_of_route_eq (h : s.Tidy) {r q : Rule} (hr : r ∈ s.toList) (hq : q ∈ s.toList)
    (hroute : r.route = q.route) : r = q := by
  obtain ⟨hd, hr⟩ := (mem_toList s r).mp hr
  have hq := ((mem_toList s q).mp hq).2
  rw [← hroute] at hq
  exact List.inj_on_of_nodup_map (h.nodup hd) hr hq hroute

theorem valid_of_lt {d : Nat} (hdepth : ValidDepth depth) (hlow : 1 ≤ d) (hlt : d < depth) :
    ValidDepth d := ⟨hlow, Nat.le_trans (Nat.le_of_lt hlt) hdepth.2⟩

/-! ### The answers of the search -/

/-- The answer is a stored rule around the address. -/
theorem ruleAt_of_covering? (hdepth : ValidDepth depth) {i d : Nat}
    (h : s.covering? a depth = some (i, d)) :
    s.ruleAt d i ∈ s.toList ∧ (s.ruleAt d i).route = .of a d := by
  obtain ⟨⟨hlow, hlt⟩, hfind, -⟩ := covering?_eq_some_iff.mp h
  exact mem_routes_of_find? (valid_of_lt hdepth hlow hlt) hfind

/-- The depth of the answer is the greatest one with a rule around the address. -/
theorem isGreatest_of_covering? (hdepth : ValidDepth depth) {i d : Nat}
    (h : s.covering? a depth = some (i, d)) :
    IsGreatest {e | e < depth ∧ Prefix.of a e ∈ s.routes} d := by
  obtain ⟨⟨hlow, hlt⟩, -, habove⟩ := covering?_eq_some_iff.mp h
  obtain ⟨hmem, hroute⟩ := ruleAt_of_covering? hdepth h
  refine ⟨⟨hlt, List.mem_map.mpr ⟨_, hmem, hroute⟩⟩, fun e he => ?_⟩
  obtain ⟨hlt', hstored⟩ := he
  by_contra hgt
  have hde := Nat.lt_of_not_le hgt
  have hvalid := valid_of_lt hdepth (Nat.le_trans hlow (Nat.le_of_lt hde)) hlt'
  exact (find?_eq_none_iff (p := .of a e) hvalid).mp (habove e hde hlt') hstored

/-- Without an answer no shallower rule lies around the address. -/
theorem covering?_eq_none_iff_covers (hdepth : ValidDepth depth) : s.covering? a depth = none ↔
    ∀ r ∈ s.toList, r.route.depth < depth → ¬ r.route.Covers a := by
  rw [covering?_eq_none_iff]
  constructor
  · intro h r hr hlt hcovers
    have hvalid := ((mem_toList s r).mp hr).1
    have hnone := h r.route.depth hvalid.1 hlt
    rw [hcovers.of_eq, find?_eq_none_iff hvalid] at hnone
    exact hnone (List.mem_map_of_mem hr)
  · intro h e hlow hlt
    rw [find?_eq_none_iff (p := .of a e) (valid_of_lt hdepth hlow hlt)]
    intro hstored
    obtain ⟨r, hr, hroute⟩ := List.mem_map.mp hstored
    refine h r hr ?_ ?_
    · rw [hroute]
      exact hlt
    · rw [hroute]
      exact Prefix.covers_of a e

theorem exists_covering?_iff (hdepth : ValidDepth depth) (d : Nat) :
    (∃ i, s.covering? a depth = some (i, d)) ↔
      IsGreatest {e | e < depth ∧ Prefix.of a e ∈ s.routes} d := by
  constructor
  · intro h
    obtain ⟨i, hanswer⟩ := h
    exact isGreatest_of_covering? hdepth hanswer
  · intro h
    cases hanswer : s.covering? a depth with
    | none =>
      obtain ⟨hlt, hstored⟩ := h.1
      obtain ⟨r, hr, hroute⟩ := List.mem_map.mp hstored
      have hnone := (covering?_eq_none_iff_covers hdepth).mp hanswer r hr
      rw [hroute] at hnone
      exact absurd (Prefix.covers_of a d) (hnone hlt)
    | some found =>
      obtain ⟨i, e⟩ := found
      rw [(isGreatest_of_covering? hdepth hanswer).unique h]
      exact ⟨i, rfl⟩

/-! ### The longest match -/

/-- Of all rules around an address the deepest one. -/
structure LongestMatch (s : RuleStore) (a : Address) (r : Rule) : Prop where
  mem : r ∈ s.toList
  covers : r.route.Covers a
  deepest : ∀ q ∈ s.toList, q.route.Covers a → q = r ∨ q.route.depth < r.route.depth

/-- The cover at a depth is the longest match of an address that no rule of this depth or a
deeper one takes. -/
theorem Tidy.longestMatch_of_covering? (h : s.Tidy) (hdepth : ValidDepth depth)
    (hdeep : ∀ r ∈ s.toList, depth ≤ r.route.depth → ¬ r.route.Covers a) {i d : Nat}
    (hanswer : s.covering? a depth = some (i, d)) : s.LongestMatch a (s.ruleAt d i) := by
  obtain ⟨hmem, hroute⟩ := ruleAt_of_covering? hdepth hanswer
  refine ⟨hmem, ?_, fun q hq hcovers => ?_⟩
  · rw [hroute]
    exact Prefix.covers_of a d
  · have hshallow : q.route.depth < depth := Nat.lt_of_not_le fun hle => hdeep q hq hle hcovers
    have hstored : Prefix.of a q.route.depth ∈ s.routes := by
      rw [hcovers.of_eq]
      exact List.mem_map_of_mem hq
    have hle := (isGreatest_of_covering? hdepth hanswer).2 ⟨hshallow, hstored⟩
    rcases Nat.lt_or_eq_of_le hle with hlt | heq
    · exact .inr hlt
    · refine .inl (h.eq_of_route_eq hq hmem ?_)
      rw [hroute, ← heq, hcovers.of_eq]

/-- After the removal of the rule of a prefix, no rule of its depth is around its addresses. -/
theorem Tidy.not_covers_of_remove (h : s.Tidy) {p : Prefix} (hp : ValidDepth p.depth)
    {place : Nat} (hfind : s.find? p = some place) (ha : p.Covers a)
    (hdeep : ∀ r ∈ (s.remove place p.depth).toList, p.depth < r.route.depth →
      ¬ r.route.Covers a) :
    ∀ r ∈ (s.remove place p.depth).toList, p.depth ≤ r.route.depth → ¬ r.route.Covers a := by
  intro r hr hle hcovers
  rcases Nat.lt_or_eq_of_le hle with hlt | heq
  · exact hdeep r hr hlt hcovers
  · have hplace := (find?_eq_some hfind).1
    have hroute := ((h.mem_remove hp hplace r).mp hr).1
    rw [(mem_routes_of_find? hp hfind).2] at hroute
    refine hroute ?_
    rw [← hcovers.of_eq, ← heq, ha.of_eq]

/-- In every store, and for every address, the search for a cover below a depth answers the
greatest shallower depth at which the block around the address is stored, with the place of that
rule, and answers nothing exactly where no shallower rule is around the address. So when the rule
of a prefix is removed, the cover of the prefix is the longest match of each of its addresses that
no deeper rule takes, and without a cover such an address has no match. -/
theorem covers_deepest (capacity : Nat) (calls : List StoreCall) :
    let s := calls.foldl serve (new capacity)
    (∀ (a : Address) (depth : Nat), ValidDepth depth →
      (∀ d, (∃ i, s.covering? a depth = some (i, d)) ↔
        IsGreatest {e | e < depth ∧ Prefix.of a e ∈ s.routes} d) ∧
      (∀ i d, s.covering? a depth = some (i, d) →
        s.ruleAt d i ∈ s.toList ∧ (s.ruleAt d i).route = .of a d) ∧
      (s.covering? a depth = none ↔
        ∀ r ∈ s.toList, r.route.depth < depth → ¬ r.route.Covers a)) ∧
    ∀ (p : Prefix) (place : Nat), ValidDepth p.depth → s.find? p = some place →
      let s' := s.remove place p.depth
      s.canRemove place p.depth = true ∧
      (∀ r, r ∈ s'.toList ↔ r.route ≠ p ∧ r ∈ s.toList) ∧
      ∀ a, p.Covers a → (∀ r ∈ s'.toList, p.depth < r.route.depth → ¬ r.route.Covers a) →
        (∀ i d, s'.covering? p.base p.depth = some (i, d) → s'.LongestMatch a (s'.ruleAt d i)) ∧
        (s'.covering? p.base p.depth = none → ∀ r ∈ s'.toList, ¬ r.route.Covers a) := by
  intro s
  have htidy : s.Tidy := (tidy_new capacity).foldl_serve calls
  refine ⟨fun a depth hdepth => ⟨exists_covering?_iff hdepth,
    fun i d => ruleAt_of_covering? hdepth, covering?_eq_none_iff_covers hdepth⟩, ?_⟩
  intro p place hp hfind s'
  have hplace := (find?_eq_some hfind).1
  have hroute := (mem_routes_of_find? hp hfind).2
  refine ⟨htidy.packed.canRemove hp hplace, fun r => ?_, fun a ha hdeep => ?_⟩
  · rw [htidy.mem_remove hp hplace, hroute]
  · have hnone := htidy.not_covers_of_remove hp hfind ha hdeep
    rw [covering?_of_covers s' ha]
    refine ⟨fun i d => (htidy.remove hp hplace).longestMatch_of_covering? hp hnone, ?_⟩
    intro hanswer r hr hcovers
    have hshallow : r.route.depth < p.depth := Nat.lt_of_not_le fun hle => hnone r hr hle hcovers
    exact (covering?_eq_none_iff_covers hp).mp hanswer r hr hshallow hcovers

/-- A rule of depth 24 goes, and an address in the middle of its block falls to the rule of depth
16 around it and not to the one of depth 8. -/
theorem covers_deepest_withdrawn :
    let calls : List StoreCall := [.add ⟨⟨0x0A010200, 24⟩, by decide⟩ 3,
      .add ⟨⟨0x0A000000, 8⟩, by decide⟩ 1, .add ⟨⟨0x0A010000, 16⟩, by decide⟩ 2]
    let s := calls.foldl serve (new 4)
    let s' := s.remove 2 24
    s.find? ⟨0x0A010200, 24⟩ = some 2 ∧ s'.covering? 0x0A010200 24 = some (1, 16) ∧
      s'.ruleAt 16 1 = ⟨⟨0x0A010000, 16⟩, 2⟩ ∧ s'.LongestMatch 0x0A01024D (s'.ruleAt 16 1) := by
  intro calls s s'
  have hfind : s.find? ⟨0x0A010200, 24⟩ = some 2 := by decide +kernel
  have hcover : s'.covering? 0x0A010200 24 = some (1, 16) := by decide +kernel
  have hdeep : ∀ r ∈ s'.toList, 24 < r.route.depth → ¬ r.route.Covers 0x0A01024D := by
    decide +kernel
  obtain ⟨-, -, hmatch⟩ := (covers_deepest 4 calls).2 _ _ (by decide) hfind
  exact ⟨hfind, hcover, by decide +kernel, (hmatch 0x0A01024D (by decide) hdeep).1 1 16 hcover⟩

end RuleStore

end Dir248
