import Dir248.Proofs.Table.Failures
import Dir248.Proofs.Table.Standing

/-!
# When there is no room for a rule

A new rule needs a place in the store, and a deeper rule in a bucket of its own needs a
group. There is no place when as many rules are stored as the table may hold. There is no
group when those that serve buckets and those that are pending make up all of them, and
nothing pending comes back: the oldest item of the defer queue has not passed its check, or
there is none.

* **`Router.Upkeep`**, **`Router.upkeep_after`** — the sizing that no operation changes, and the
  pool that each operation leaves tight.
* **`Router.addRule_outOfSpace_iff`** — when an addition finds no room.
* **`Router.outOfSpace_iff`** — the same after every history.
-/

namespace Dir248

namespace Router

open Arrays Plane Traced

/-! ### What every operation keeps -/

/-- The sizing of the table stands, and groups are stranded behind a full queue only. -/
structure Upkeep (s : Router) (config : Config) : Prop where
  sized : s.table.config = config
  capacity : s.table.rules.capacity = config.maxRules
  tight : s.table.pool.Tight

variable {s : Router} {config : Config}

theorem upkeep_fresh (name : String) (config : Config) (maxReaders : Nat) :
    (fresh name config maxReaders).Upkeep config :=
  ⟨rfl, RuleStore.capacity_new _, Pool.tight_new⟩

theorem lasting_tight : Pool.Lasting Pool.Tight :=
  ⟨tight_allocate, tight_release, tight_reclaim, tight_drain, tight_reset⟩

theorem Upkeep.take (h : s.Upkeep config) (turn : Turn) :
    (s.take turn).value.state.Upkeep config := by
  have hstands : s.Stands Pool.Tight s.table.name config := ⟨rfl, h.sized, h.capacity, h.tight⟩
  have htaken := hstands.take lasting_tight turn fun mode _ _ => tight_bind h.tight mode _
  exact ⟨htaken.sized, htaken.capacity, htaken.pool⟩

/-- No history changes the sizing, and each leaves the pool tight. -/
theorem upkeep_after (h : s.Upkeep config) (turns : List Turn) :
    (s.after turns).Upkeep config := by
  induction turns generalizing s with
  | nil => exact h
  | cons turn turns ih => exact ih (h.take turn)

/-! ### No room -/

variable {m : RuleMap}

theorem mem_deepBuckets_iff (h : s.Holds m) {i : Nat} (hi : i < bucketCount) :
    i ∈ s.table.rules.deepBuckets ↔ s.table.arrays.Deep i :=
  (h.shaped.group hi).symm

/-- A rule of a prefix is stored when the map has it. -/
theorem Holds.toMap_eq_none_iff (h : s.Holds m) (p : Prefix) :
    s.table.rules.toMap p = none ↔ ∀ r ∈ s.table.rules.toList, r.route ≠ p := by
  rw [Option.eq_none_iff_forall_ne_some]
  constructor
  · rintro hnone r hr rfl
    exact hnone _ (h.wellFormed.toMap_of_mem hr)
  · intro hall hop hmap
    exact hall _ ((h.wellFormed.toMap_eq_some_iff p hop).mp hmap) rfl

/-- There is no group for a deeper rule. -/
theorem allocate_outOfSpace_iff (h : s.Holds m) (hc : s.plane.desk.Clean)
    (ht : s.table.pool.Tight) : s.plane.allocate.value.answer = .error .outOfSpace ↔
      s.table.rules.deepBuckets.card + s.table.stats.pendingReclaims = s.table.arrays.groups ∧
        (s.table.stats.pendingReclaims = 0 ∨ s.plane.Blocked) := by
  rw [allocate_error_iff h.accounted hc ht, ← h.shaped.count]
  rfl

/-- An addition finds no room: it is new, and there is no place or no group for it. -/
theorem addRule_outOfSpace_iff (h : s.Holds m) (hc : s.plane.desk.Clean)
    (hu : s.Upkeep config) {r : Rule} (hr : r.route.IsBlock) :
    (s.addRule r).value.answer = .error .outOfSpace ↔
      (∀ q ∈ s.table.rules.toList, q.route ≠ r.route) ∧
        (s.table.rules.toList.length = config.maxRules ∨
          bucketDepth < r.route.depth ∧ bucket r.route.base ∉ s.table.rules.deepBuckets ∧
            s.table.rules.deepBuckets.card + s.table.stats.pendingReclaims =
              s.table.arrays.groups ∧
            (s.table.stats.pendingReclaims = 0 ∨ s.plane.Blocked)) := by
  have hadded := s.table.rules.added_add hr.depth
  have hfits := h.wellFormed.packed.fits
  rw [← h.toMap_eq_none_iff, RuleStore.length_toList, ← hu.capacity,
    mem_deepBuckets_iff h (bucket_lt _), ← allocate_outOfSpace_iff h hc hu.tight]
  unfold addRule
  rw [value_bind]
  generalize (s.table.rules.add r).value = out at hadded ⊢
  cases hadded with
  | known hmap =>
    rw [hmap]
    exact iff_of_false nofun fun h' => nomatch h'.1
  | changed _ _ hmap =>
    -- a stored deep rule has its group, so the arrays can follow
    rw [hmap]
    refine iff_of_false (fun herror => ?_) fun h' => nomatch h'.1
    obtain ⟨hd, hno, -⟩ := (project_error_iff (s.setRules _) ..).mp herror
    exact hno (h.deep_of_mem (h.toMap ▸ hmap) hd)
  | full hmap hfull => exact iff_of_true rfl ⟨hmap, .inl (Nat.le_antisymm hfits hfull)⟩
  | fresh hmap _ hroom =>
    have hproject := project_error_iff (s.setRules (s.table.rules.insert r)) r
      (.inserted (s.table.rules.placeFor r.route.depth)) .inserted .outOfSpace
    refine hproject.trans ?_
    rw [and_iff_right hmap, or_iff_right (Nat.ne_of_lt hroom)]
    rfl

/-- After every history an addition is out of space when its rule is new and either the
store is full, or it needs a group while all of them serve buckets or are pending and none
that is pending comes back. -/
theorem outOfSpace_iff (name : String) (config : Config) (hgroups : config.groups ≤ maxGroups)
    (maxReaders : Nat) (turns : List Turn) (a : Address) {depth nextHop : Nat}
    (hd : ValidDepth depth) (hh : nextHop ≤ maxNextHop) :
    let s := (fresh name config maxReaders).after turns
    (s.add a depth nextHop).value.answer = .error .outOfSpace ↔
      (∀ r ∈ s.table.rules.toList, r.route ≠ .of a depth) ∧
        (s.table.rules.toList.length = config.maxRules ∨
          bucketDepth < depth ∧ bucket a ∉ s.table.rules.deepBuckets ∧
            s.table.rules.deepBuckets.card + s.table.stats.pendingReclaims = config.groups ∧
            (s.table.stats.pendingReclaims = 0 ∨ s.plane.Blocked)) := by
  intro s
  have hholds : s.Holds _ := holds_fresh_run name hgroups maxReaders turns
  have hclean : s.plane.desk.Clean := clean_fresh_after name hgroups maxReaders turns
  have hupkeep : s.Upkeep config := upkeep_after (upkeep_fresh name config maxReaders) turns
  have hcount : s.table.arrays.groups = config.groups := groups_after _ turns
  have hadd : s.add a depth nextHop = s.addRule ⟨.of a depth, nextHop⟩ := by
    rw [add, if_neg (not_not.mpr hd), if_neg (Nat.not_lt_of_le hh)]
  rw [hadd, addRule_outOfSpace_iff hholds hclean hupkeep (Prefix.isBlock_of a hd), hcount]
  refine and_congr_right fun _ => or_congr_right (and_congr_right fun hdeep => ?_)
  rw [show bucket (Prefix.of a depth).base = bucket a from bucket_clip a (Nat.le_of_lt hdeep)]

/-- All groups are in use, and the one in the queue waits for a reader. -/
theorem outOfSpace_iff_exhausted :
    ValidDepth 28 ∧ 5 ≤ maxNextHop ∧
      (∀ r ∈ exhausted.table.rules.toList, r.route ≠ .of 0x0A000301 28) ∧
      (exhausted.table.rules.toList.length = 8 ∨
        bucketDepth < 28 ∧ bucket 0x0A000301 ∉ exhausted.table.rules.deepBuckets ∧
          exhausted.table.rules.deepBuckets.card + exhausted.table.stats.pendingReclaims = 3 ∧
          (exhausted.table.stats.pendingReclaims = 0 ∨ exhausted.plane.Blocked)) := by
  have hfails : (exhausted.add 0x0A000301 28 5).value.answer = .error .outOfSpace := by
    decide +kernel
  refine ⟨by decide, by decide, ?_⟩
  rw [exhausted_eq] at hfails ⊢
  exact (outOfSpace_iff "edge" ⟨8, 3⟩ (by decide) 1 exhaustion _ (by decide) (by decide)).mp hfails

end Router

end Dir248
