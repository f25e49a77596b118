import Dir248.Proofs.Table.Operations
import Dir248.Proofs.Table.Ownership

/-!
# What a history leaves

The commands of a history and their answers say which rules there should be. Whatever
readers did meanwhile, the table holds exactly these rules, answers every address by the
deepest of them, and the shape of its first level depends on nothing else.

* **`RuleMap.recorded`** — the rules according to the commands and their answers.
* **`Router.holds_run`** — a history leaves the table with these rules.
* **`Router.lookup_run`** — what lookups and the list of rules say after a history.
* **`Table.Shaped`**, **`Router.shaped_after`** — the first level and the number of groups as a
  function of the rules.
-/

namespace Dir248

namespace RuleMap

/-- The rules after one turn that was answered so. -/
def record (m : RuleMap) : Turn → Option Answer → RuleMap
  | .write (.add a depth nextHop) _, some (.added result) => m.afterAdd (.of a depth) nextHop result
  | .write (.delete a depth) _, some (.done result) => m.afterDelete (.of a depth) result
  | .write .deleteAll _, _ => fun _ => none
  | _, _ => m

/-- The rules after a history that was answered so. -/
def recorded (m : RuleMap) : List Turn → List (Option Answer) → RuleMap
  | turn :: turns, answer :: answers => (m.record turn answer).recorded turns answers
  | _, _ => m

end RuleMap

namespace Router

variable {s : Router} {m : RuleMap}

theorem holds_take (h : s.Holds m) (turn : Turn) :
    (s.take turn).value.state.Holds (m.record turn (s.take turn).value.answer) := by
  cases turn with
  | write c meanwhile =>
    cases c with
    | add a depth nextHop => exact holds_add h a depth nextHop
    | delete a depth => exact holds_delete h a depth meanwhile
    | deleteAll => exact holds_deleteAll h meanwhile
    | reclaim => exact holds_reclaim h
    | bind mode => exact holds_bind h mode
    | settle => exact holds_settle h meanwhile
  | read step => exact h.retrack _
  | grace => exact h.retrack _

/-- A table holds the rules that its answers speak of. -/
theorem holds_run (h : s.Holds m) (turns : List Turn) :
    (s.run turns).value.state.Holds (m.recorded turns (s.run turns).value.answer) := by
  induction turns generalizing s m with
  | nil => exact h
  | cons turn turns ih => exact ih (holds_take h turn)

theorem holds_fresh_run (name : String) {config : Config} (hgroups : config.groups ≤ maxGroups)
    (maxReaders : Nat) (turns : List Turn) :
    ((fresh name config maxReaders).run turns).value.state.Holds
      (RuleMap.recorded (fun _ => none) turns
        ((fresh name config maxReaders).run turns).value.answer) :=
  holds_run (holds_fresh name hgroups maxReaders) turns

/-- After every history an address is answered by the deepest rule around it, and the rules
are listed once each. -/
theorem lookup_run (name : String) (config : Config) (hgroups : config.groups ≤ maxGroups)
    (maxReaders : Nat) (turns : List Turn) :
    let out := ((fresh name config maxReaders).run turns).value
    let m := RuleMap.recorded (fun _ => none) turns out.answer
    (∀ a hop, out.state.table.lookup a = some hop ↔
      ∃ d, m (.of a d) = some hop ∧ ∀ e, d < e → m (.of a e) = none) ∧
    (∀ a, out.state.table.lookup a = none ↔ ∀ d, m (.of a d) = none) ∧
    out.state.table.rules.toList.Nodup ∧
    ∀ r, r ∈ out.state.table.rules.toList ↔ m r.route = some r.nextHop := by
  intro out m
  have h : out.state.Holds m := holds_fresh_run name hgroups maxReaders turns
  have hlookup : ∀ a, out.state.table.lookup a = (m.best a maxDepth).map Route.nextHop :=
    fun a => congrArg (Option.map Route.nextHop) (h.realizes.answers a)
  refine ⟨fun a hop => ?_, fun a => ?_, h.wellFormed.nodup_toList, fun r => ?_⟩
  · rw [hlookup, h.valid.best_iff]
  · rw [hlookup, h.valid.best_none_iff]
  · rw [← h.toMap, h.wellFormed.toMap_eq_some_iff]

/-- A removal that the full queue cannot complete, and a deeper rule inside a shallower one. -/
theorem lookup_run_stranding :
    let turns : List Turn :=
      [.write (.bind (.defer 1 1 1)) fun _ => [], .read .register, .read (.online 0),
        .write (.add 0x0A000000 8 5) fun _ => [], .write (.add 0x0A000001 32 7) fun _ => [],
        .write (.add 0x0A000101 32 8) fun _ => [], .write (.delete 0x0A000001 32) fun _ => [],
        .write (.delete 0x0A000101 32) fun _ => []]
    let out := ((fresh "edge" ⟨4, 2⟩ 1).run turns).value
    let m := RuleMap.recorded (fun _ => none) turns out.answer
    ∀ a, out.state.table.lookup a = none ↔ ∀ d, m (.of a d) = none :=
  (lookup_run "edge" ⟨4, 2⟩ (by decide) 1 _).2.1

end Router

/-! ### The shape of the first level -/

/-- The prefix covers all addresses of a bucket. -/
def Prefix.Spans (p : Prefix) (i : Nat) : Prop :=
  p.depth ≤ bucketDepth ∧ ∀ a, bucket a = i → p.Covers a

theorem Prefix.spans_iff (p : Prefix) (a : Address) :
    p.Spans (bucket a) ↔ p.depth ≤ bucketDepth ∧ p.Covers a := by
  refine and_congr_right fun hd => ⟨fun h => h a rfl, fun h b hb => ?_⟩
  exact (p.covers_congr hd ((bucket_eq_iff ..).mp hb)).mpr h

/-- The buckets that hold a rule deeper than a bucket. -/
def RuleStore.deepBuckets (s : RuleStore) : Finset Nat :=
  ((s.toList.filter fun r => bucketDepth < r.route.depth).map fun r => bucket r.route.base).toFinset

theorem RuleStore.WellFormed.mem_deepBuckets {s : RuleStore} (h : s.WellFormed) (i : Nat) :
    i ∈ s.deepBuckets ↔ s.toMap.DeepIn i := by
  simp only [RuleStore.deepBuckets, List.mem_toFinset, List.mem_map, List.mem_filter,
    decide_eq_true_eq]
  constructor
  · intro h'
    obtain ⟨r, ⟨hr, hd⟩, hb⟩ := h'
    exact ⟨r.route, r.nextHop, h.toMap_of_mem hr, hd, hb⟩
  · intro h'
    obtain ⟨p, hop, hp, hd, hb⟩ := h'
    exact ⟨⟨p, hop⟩, ⟨(h.toMap_eq_some_iff p hop).mp hp, hd⟩, hb⟩

namespace Table

/-- Buckets with a deep rule name a group, the others hold the deepest rule that spans them,
and there are as many groups as such buckets beside those that wait. -/
structure Shaped (t : Table) : Prop where
  group : ∀ {i}, i < bucketCount →
    ((∃ g, t.arrays.entryAt i = .group g) ↔ i ∈ t.rules.deepBuckets)
  leaf : ∀ {i}, i < bucketCount → i ∉ t.rules.deepBuckets → ∀ q,
    (t.arrays.entryAt i = .leaf q ↔ ∃ r ∈ t.rules.toList, r.answer = q ∧ r.route.Spans i ∧
      ∀ r' ∈ t.rules.toList, r'.route.Spans i → r'.route.depth ≤ r.route.depth)
  invalid : ∀ {i}, i < bucketCount → i ∉ t.rules.deepBuckets →
    (t.arrays.entryAt i = .invalid ↔ ∀ r ∈ t.rules.toList, ¬ r.route.Spans i)
  count : t.stats.groupsInUse = t.rules.deepBuckets.card + t.stats.pendingReclaims

end Table

namespace Router

open Arrays

variable {s : Router} {m : RuleMap}

/-- The best of the rules that span a bucket. -/
theorem Holds.best_iff (h : s.Holds m) (a : Address) (q : Route) :
    m.best a bucketDepth = some q ↔ ∃ r ∈ s.table.rules.toList, r.answer = q ∧
      r.route.Spans (bucket a) ∧ ∀ r' ∈ s.table.rules.toList, r'.route.Spans (bucket a) →
        r'.route.depth ≤ r.route.depth := by
  have hmem : ∀ r : Rule, r ∈ s.table.rules.toList ↔ m r.route = some r.nextHop := by
    intro r
    rw [← h.toMap, h.wellFormed.toMap_eq_some_iff]
  rw [RuleMap.best_eq_some_iff]
  constructor
  · intro h'
    obtain ⟨h1, h2, h3, h4⟩ := h'
    refine ⟨⟨.of a q.depth, q.nextHop⟩, (hmem _).mpr h3, rfl,
      (Prefix.spans_iff ..).mpr ⟨h2, Prefix.covers_of ..⟩, fun r' hr' hspans => ?_⟩
    obtain ⟨hd, hcovers⟩ := (Prefix.spans_iff ..).mp hspans
    by_contra hlt
    have hnone := h4 r'.route.depth (Nat.lt_of_not_le hlt) hd
    rw [hcovers.of_eq, (hmem r').mp hr'] at hnone
    cases hnone
  · intro h'
    obtain ⟨r, hr, rfl, hspans, hdeepest⟩ := h'
    have hmr := (hmem r).mp hr
    obtain ⟨hd, hcovers⟩ := (Prefix.spans_iff ..).mp hspans
    refine ⟨(h.valid.isBlock hmr).one_le, hd, ?_, fun d hlt hle => ?_⟩
    · show m (.of a r.route.depth) = some r.nextHop
      rw [hcovers.of_eq]
      exact hmr
    · cases hm : m (.of a d) with
      | none => rfl
      | some hop =>
        have hle' := hdeepest ⟨.of a d, hop⟩ ((hmem _).mpr hm)
          ((Prefix.spans_iff ..).mpr ⟨hle, Prefix.covers_of ..⟩)
        exact absurd hlt (Nat.not_lt_of_le hle')

theorem Holds.best_none_iff (h : s.Holds m) (a : Address) :
    m.best a bucketDepth = none ↔ ∀ r ∈ s.table.rules.toList, ¬ r.route.Spans (bucket a) := by
  rw [Option.eq_none_iff_forall_ne_some]
  constructor
  · intro hnone r hr hspans
    obtain ⟨hd, hcovers⟩ := (Prefix.spans_iff ..).mp hspans
    have hmr : m r.route = some r.nextHop := by
      rw [← h.toMap]
      exact h.wellFormed.toMap_of_mem hr
    have hma : m (.of a r.route.depth) = some r.nextHop := by
      rw [hcovers.of_eq]
      exact hmr
    obtain ⟨q, hq, -⟩ := RuleMap.exists_best_of_rule (h.valid.isBlock hmr).one_le hd hma
    exact hnone q hq
  · intro hspans q hq
    obtain ⟨r, hr, -, hr', -⟩ := (h.best_iff a q).mp hq
    exact hspans r hr hr'

/-- The shape follows from the rules that the table holds. -/
theorem Holds.shaped (h : s.Holds m) : s.table.Shaped := by
  have hdeep : ∀ i, i ∈ s.table.rules.deepBuckets ↔ m.DeepIn i := by
    intro i
    rw [h.wellFormed.mem_deepBuckets, h.toMap]
  have hentry : ∀ {i}, i < bucketCount → i ∉ s.table.rules.deepBuckets →
      s.table.arrays.entryAt i = .ofRoute (m.best (addressAt i 0) bucketDepth) := by
    intro i hi hno
    have hb := bucket_addressAt hi (o := 0) (by decide)
    rw [hdeep, ← hb] at hno
    have hentry := h.realizes.entryAt_eq hno
    rwa [hb] at hentry
  refine ⟨fun hi => ?_, fun {i} hi hno q => ?_, fun {i} hi hno => ?_, ?_⟩
  · rw [hdeep]
    exact h.realizes.deep hi
  · have hbest := h.best_iff (addressAt i 0) q
    rw [bucket_addressAt hi (by decide)] at hbest
    rw [hentry hi hno, ← hbest]
    cases m.best (addressAt i 0) bucketDepth with
    | none => exact iff_of_false nofun nofun
    | some r => simp [Entry.ofRoute]
  · have hbest := h.best_none_iff (addressAt i 0)
    rw [bucket_addressAt hi (by decide)] at hbest
    rw [hentry hi hno, ← hbest]
    cases m.best (addressAt i 0) bucketDepth with
    | none => exact iff_of_true rfl rfl
    | some r => exact iff_of_false nofun nofun
  · have hlinked : s.table.arrays.linkedBuckets = s.table.rules.deepBuckets := by
      ext i
      rw [mem_linkedBuckets, hdeep]
      constructor
      · intro h'
        obtain ⟨hi, hg⟩ := h'
        exact (h.realizes.deep hi).mp hg
      · intro hd
        have hi : i < bucketCount := by
          obtain ⟨p, -, -, -, rfl⟩ := hd
          exact bucket_lt p.base
        exact ⟨hi, (h.realizes.deep hi).mpr hd⟩
    have hcount := (account_kept h.accounted).count
    rw [Pool.length_kept, hlinked] at hcount
    exact hcount

/-- After every history the first level and the number of groups depend on the rules only. -/
theorem shaped_after (name : String) (config : Config) (hgroups : config.groups ≤ maxGroups)
    (maxReaders : Nat) (turns : List Turn) :
    ((fresh name config maxReaders).after turns).table.Shaped :=
  (holds_fresh_run name hgroups maxReaders turns).shaped

/-- A bucket whose only deep rule is deleted again. -/
theorem shaped_after_folding :
    ((fresh "edge" ⟨4, 2⟩ 1).after
      [.write (.add 0x0A000000 8 5) fun _ => [], .write (.add 0x0A000001 32 7) fun _ => [],
        .write (.delete 0x0A000001 32) fun _ => []]).table.Shaped :=
  shaped_after "edge" ⟨4, 2⟩ (by decide) 1 _

end Router

end Dir248
