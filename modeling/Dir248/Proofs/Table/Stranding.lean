import Dir248.Proofs.Table.Space

/-!
# Groups that the full queue turns away

A removal can answer that no group could be reclaimed, and yet it is complete. The rule is out of
the store and out of the arrays by the time its group is released, and the group, which no bucket
names any more, joins the stranded ones. A release sends the stranded groups first, newest first,
and then its own. Only a queue that is full behind an item that may not go turns a group away, and
such a queue turns away all that follow. So a release that succeeds has brought every stranded
group in before.

* **`Plane.release_deferring`** — the two ways a release to the queue can end.
* **`Plane.removeDeep_unavailable`**, **`Plane.removeDeep_unlinked`** — the same for a rule that
  goes.
* **`Router.Removed`** — what the rules and the lookups are when one rule is gone.
* **`Router.Stranding`** — all that a removal leaves whose group is turned away.
* **`Router.stranding_delete`** — the answers of a removal after every history.
-/

namespace Dir248

namespace Plane

open Arrays Traced

variable {p : Plane}

/-- A released group comes into the queue with all that were stranded, or it is stranded behind a
full queue whose oldest item may not go. -/
theorem release_deferring (ht : p.pool.Tight) {q : DeferQueue}
    (hq : p.pool.reclaimer = .deferring q) (g : Nat) (meanwhile : Meanwhile) :
    let out := (p.release g meanwhile).value
    (out.answer = .ok () ∧ out.state.pool.stranded = []) ∨
      out.answer = .error .reclamationUnavailable ∧
        ∃ q' older, out.state.pool.reclaimer = .deferring q' ∧ q'.length = q'.capacity ∧
          q'.Blocked out.state.tracker ∧ out.state.pool.stranded = g :: older := by
  obtain ⟨q', hq', hs', hend⟩ := requeue_spec p.pool.stranded hq (ht.sound hq)
  unfold release
  rw [hq]
  simp only [value_bind]
  generalize (p.requeue p.pool.stranded).value = p at hq' hend ⊢
  obtain ⟨sent, hsent, hrejected, hanswer, htracker, hpool⟩ := defer_of_deferring hq' g
  generalize (p.defer g).value = out at hanswer htracker hpool ⊢
  obtain ⟨s, answer⟩ := out
  cases answer with
  | ok u =>
    refine .inl ⟨rfl, ?_⟩
    rcases hend with hnil | ⟨hfull, hblocked⟩
    · exact (congrArg Pool.stranded hpool).trans hnil
    · -- the queue that turned an older group away turns this one away too
      rw [(hblocked.rejects hfull hsent).1] at hanswer
      cases hanswer
  | error e =>
    obtain ⟨hblocked, hfull⟩ := hrejected ⟨e, hanswer.symm⟩ hs'
    obtain ⟨hrefused, hstays⟩ := hblocked.rejects hfull hsent
    refine .inr ⟨hanswer.trans hrefused, sent.queue, s.pool.stranded,
      congrArg Pool.reclaimer hpool, hstays, ?_, rfl⟩
    show sent.queue.Blocked s.tracker
    rw [show s.tracker = sent.tracker from htracker]
    exact (hblocked.sent hsent).2

/-- Only a queue turns a released group away. -/
theorem deferring_of_release (g : Nat) (meanwhile : Meanwhile)
    (h : (p.release g meanwhile).value.answer = .error .reclamationUnavailable) :
    ∃ q, p.pool.reclaimer = .deferring q := by
  unfold release at h
  split at h
  · cases h
  · cases h
  · next q hq => exact ⟨q, hq⟩

/-- A release leaves the first level as it is. -/
theorem entryAt_release (p : Plane) (g : Nat) (meanwhile : Meanwhile) (i : Nat) :
    (p.release g meanwhile).value.state.arrays.entryAt i = p.arrays.entryAt i :=
  entryAt_of_buckets (buckets_of_chain (release_moves p g meanwhile)) i

/-- A rule goes and its group is turned away: the bucket has forgotten the group by then. -/
theorem removeDeep_unavailable (ht : p.pool.Tight) {route : Prefix} {cover : Option Route}
    {meanwhile : Meanwhile}
    (h : (p.removeDeep route cover meanwhile).value.answer = .error .reclamationUnavailable) :
    let out := (p.removeDeep route cover meanwhile).value
    ∃ g q q' older, p.arrays.entryAt (bucket route.base) = .group g ∧
      (∀ g', out.state.arrays.entryAt (bucket route.base) ≠ .group g') ∧
      p.pool.reclaimer = .deferring q ∧ out.state.pool.reclaimer = .deferring q' ∧
      q'.length = q'.capacity ∧ q'.Blocked out.state.tracker ∧
      out.state.pool.stranded = g :: older := by
  cases he : p.arrays.entryAt (bucket route.base) with
  | invalid | leaf =>
    unfold removeDeep at h
    rw [he] at h
    cases h
  | group g =>
    cases hfold : foldedEntry ((swept p.arrays route cover g).verdict g) with
    | none =>
      rw [removeDeep_keep he meanwhile hfold] at h
      cases h
    | some left =>
      rw [removeDeep_fold he meanwhile hfold] at h ⊢
      have hentry : ∀ g', ((swept p.arrays route cover g).apply
          (.buckets (bucket route.base) 1 left)).entryAt (bucket route.base) ≠ .group g' := by
        intro g'
        rw [entryAt_apply_bucket _ _ _ (bucket_lt _), if_pos rfl]
        exact cut_foldedEntry hfold g'
      have ht' : (p.setArrays ((swept p.arrays route cover g).apply
          (.buckets (bucket route.base) 1 left))).pool.Tight := ht
      obtain ⟨q, hq⟩ := deferring_of_release g meanwhile h
      rcases release_deferring ht' hq g meanwhile with ⟨hok, -⟩ | ⟨-, q', older, hleft⟩
      · rw [hok] at h
        cases h
      · refine ⟨g, q, q', older, rfl, fun g' => ?_, hq, hleft⟩
        rw [entryAt_release]
        exact hentry g'

/-- A rule goes and a bucket forgets its group: where there is a queue, no group is left
stranded. -/
theorem removeDeep_unlinked (ht : p.pool.Tight) {q : DeferQueue}
    (hq : p.pool.reclaimer = .deferring q) {route : Prefix} {cover : Option Route}
    {meanwhile : Meanwhile} (hok : (p.removeDeep route cover meanwhile).value.answer = .ok ())
    {i g : Nat} (hbefore : p.arrays.entryAt i = .group g)
    (hafter : (p.removeDeep route cover meanwhile).value.state.arrays.entryAt i ≠ .group g) :
    (p.removeDeep route cover meanwhile).value.state.pool.stranded = [] := by
  cases he : p.arrays.entryAt (bucket route.base) with
  | invalid | leaf =>
    refine absurd ?_ hafter
    unfold removeDeep
    rw [he]
    exact hbefore
  | group g' =>
    cases hfold : foldedEntry ((swept p.arrays route cover g').verdict g') with
    | none =>
      refine absurd ?_ hafter
      rw [removeDeep_keep he meanwhile hfold]
      exact (entryAt_swept i).trans hbefore
    | some left =>
      rw [removeDeep_fold he meanwhile hfold] at hok ⊢
      have ht' : (p.setArrays ((swept p.arrays route cover g').apply
          (.buckets (bucket route.base) 1 left))).pool.Tight := ht
      rcases release_deferring ht' hq g' meanwhile with ⟨-, hnil⟩ | ⟨herror, -⟩
      · exact hnil
      · rw [herror] at hok
        cases hok

end Plane

namespace Router

open Arrays Plane Traced

variable {s s' : Router} {m : RuleMap}

/-! ### What is left when a rule is gone -/

/-- The rules that are left are the others, and every address is answered by the deepest of them
around it. -/
structure Removed (s s' : Router) (p : Prefix) : Prop where
  rules : ∀ r, r ∈ s'.table.rules.toList ↔ r ∈ s.table.rules.toList ∧ r.route ≠ p
  lookup : ∀ b hop, s'.table.lookup b = some hop ↔
    ∃ r ∈ s.table.rules.toList, r.route ≠ p ∧ r.route.Covers b ∧ r.nextHop = hop ∧
      ∀ r' ∈ s.table.rules.toList, r'.route ≠ p → r'.route.Covers b →
        r'.route.depth ≤ r.route.depth

theorem Holds.mem_toList (h : s.Holds m) (r : Rule) :
    r ∈ s.table.rules.toList ↔ m r.route = some r.nextHop := by
  rw [← h.toMap, h.wellFormed.toMap_eq_some_iff]

/-- An address is answered by the deepest rule around it. -/
theorem Holds.lookup_iff (h : s.Holds m) (b : Address) (hop : Nat) :
    s.table.lookup b = some hop ↔
      ∃ r ∈ s.table.rules.toList, r.route.Covers b ∧ r.nextHop = hop ∧
        ∀ r' ∈ s.table.rules.toList, r'.route.Covers b → r'.route.depth ≤ r.route.depth := by
  have hlookup : s.table.lookup b = (m.best b maxDepth).map Route.nextHop :=
    congrArg (Option.map Route.nextHop) (h.realizes.answers b)
  rw [hlookup, h.valid.best_iff]
  constructor
  · rintro ⟨d, hd, hdeepest⟩
    refine ⟨⟨.of b d, hop⟩, (h.mem_toList _).mpr hd, Prefix.covers_of .., rfl, fun r' hr' hc => ?_⟩
    by_contra hlt
    have hnone := hdeepest r'.route.depth (Nat.lt_of_not_le hlt)
    rw [hc.of_eq, (h.mem_toList r').mp hr'] at hnone
    cases hnone
  · rintro ⟨r, hr, hc, rfl, hdeepest⟩
    refine ⟨r.route.depth, ?_, fun e he => ?_⟩
    · rw [hc.of_eq]
      exact (h.mem_toList r).mp hr
    · cases hm : m (.of b e) with
      | none => rfl
      | some hop =>
        have hle := hdeepest ⟨.of b e, hop⟩ ((h.mem_toList _).mpr hm) (Prefix.covers_of ..)
        exact absurd he (Nat.not_lt_of_le hle)

/-- A table that holds the map without one rule has lost this rule and nothing else. -/
theorem removed_of_holds (h : s.Holds m) {p : Prefix} (h' : s'.Holds (Function.update m p none)) :
    s.Removed s' p := by
  have hrules : ∀ r, r ∈ s'.table.rules.toList ↔ r ∈ s.table.rules.toList ∧ r.route ≠ p := by
    intro r
    rw [h'.mem_toList, h.mem_toList]
    rcases eq_or_ne r.route p with heq | hne
    · rw [heq, Function.update_self]
      exact iff_of_false nofun fun hand => hand.2 rfl
    · rw [Function.update_of_ne hne]
      exact (and_iff_left hne).symm
  refine ⟨hrules, fun b hop => ?_⟩
  rw [h'.lookup_iff]
  simp only [hrules, and_assoc, and_imp]

/-! ### Removals that are turned away -/

/-- A rule went and its group `g` was turned away by the queue `q`, which is full behind an item
that may not go. It was the last deep rule of its bucket, and its group waits once. -/
structure Stranding (s s' : Router) (a : Address) (depth : Nat) (q : DeferQueue) (g : Nat) :
    Prop where
  deferring : ∃ q₀, s.table.pool.reclaimer = .deferring q₀
  queue : s'.table.pool.reclaimer = .deferring q
  full : q.length = q.capacity
  blocked : q.Blocked s'.tracker
  deep : bucketDepth < depth
  stored : ∃ r ∈ s.table.rules.toList, r.route = .of a depth
  last : ∀ r ∈ s.table.rules.toList, bucketDepth < r.route.depth →
    bucket r.route.base = bucket a → r.route = .of a depth
  removed : s.Removed s' (.of a depth)
  linked : s.table.arrays.entryAt (bucket a) = .group g
  unlinked : ∀ g', s'.table.arrays.entryAt (bucket a) ≠ .group g'
  kept : s'.table.pool.kept.count g = 1

/-- A removal that is answered one way or the other found its rule and withdrew it. -/
theorem delete_released {a : Address} {depth : Nat} {meanwhile : Meanwhile}
    (h : Released (s.delete a depth meanwhile).value.answer) :
    ValidDepth depth ∧ (∃ r ∈ s.table.rules.toList, r.route = .of a depth) ∧
      ∃ rules cover, (s.delete a depth meanwhile).value =
        ((s.setRules rules).withdraw (.of a depth) cover meanwhile).value := by
  unfold delete at h ⊢
  split at h
  · rcases h with h | h <;> cases h
  · next hd =>
    rw [if_neg hd]
    split at h
    · rcases h with h | h <;> cases h
    · next place hplace =>
      obtain ⟨hmem, hrule⟩ := RuleStore.find?_eq_some hplace
      refine ⟨Decidable.not_not.mp hd, ⟨_, ?_, congrArg Rule.route hrule⟩, _, _, rfl⟩
      exact (RuleStore.mem_toList_iff_ruleAt ..).mpr
        ⟨depth, place, Decidable.not_not.mp hd, hmem, rfl⟩

/-- What a removal leaves whose group is turned away. -/
theorem stranding_of_unavailable (h : s.Holds m) (ht : s.table.pool.Tight) {a : Address}
    {depth : Nat} {meanwhile : Meanwhile}
    (herror : (s.delete a depth meanwhile).value.answer = .error .reclamationUnavailable) :
    ∃ q g, s.Stranding (s.delete a depth meanwhile).value.state a depth q g := by
  have h' := holds_delete h a depth meanwhile
  rw [herror] at h'
  obtain ⟨hd, hstored, rules, cover, hvalue⟩ := delete_released (.inr herror)
  rw [hvalue] at herror h' ⊢
  by_cases hshallow : depth ≤ bucketDepth
  · -- a rule that its buckets can hold gives no group back
    unfold withdraw at herror
    rw [if_pos (show (Prefix.of a depth).depth ≤ bucketDepth from hshallow)] at herror
    cases herror
  · have hdeep := Nat.lt_of_not_le hshallow
    have hbucket : bucket (Prefix.of a depth).base = bucket a := bucket_clip a (Nat.le_of_lt hdeep)
    unfold withdraw at herror h' ⊢
    rw [if_neg (show ¬ (Prefix.of a depth).depth ≤ bucketDepth from hshallow)] at herror h' ⊢
    obtain ⟨g, q₀, q, older, hlinked, hunlinked, hq₀, hq, hfull, hblocked, hstranded⟩ :=
      removeDeep_unavailable (p := s.plane) ht herror
    rw [hbucket] at hlinked hunlinked
    have hremoved := removed_of_holds h h'
    refine ⟨q, g, ⟨q₀, hq₀⟩, hq, hfull, hblocked, hdeep, hstored, fun r hr hrd hrb => ?_, hremoved,
      hlinked, hunlinked, ?_⟩
    · -- a deep rule that is left would keep the group of its bucket
      by_contra hne
      have hleft := (h'.mem_toList r).mp ((hremoved.rules r).mpr ⟨hr, hne⟩)
      obtain ⟨g', hg'⟩ := h'.deep_of_mem hleft hrd
      rw [hrb] at hg'
      exact hunlinked g' hg'
    · have hmem :
          g ∈ (s.plane.removeDeep (.of a depth) cover meanwhile).value.state.pool.stranded :=
        hstranded ▸ List.mem_cons_self
      exact List.count_eq_one_of_mem (account_kept h'.accounted).nodup
        (List.mem_append_right _ hmem)

/-- Where there is a queue, a removal that succeeds and lets a bucket forget its group leaves no
group stranded. -/
theorem stranded_of_unlinked (ht : s.table.pool.Tight) {q : DeferQueue}
    (hq : s.table.pool.reclaimer = .deferring q) {a : Address} {depth : Nat}
    {meanwhile : Meanwhile} (hok : (s.delete a depth meanwhile).value.answer = .ok ()) {i g : Nat}
    (hi : i < bucketCount) (hbefore : s.table.arrays.entryAt i = .group g)
    (hafter : (s.delete a depth meanwhile).value.state.table.arrays.entryAt i ≠ .group g) :
    (s.delete a depth meanwhile).value.state.table.pool.stranded = [] := by
  obtain ⟨hd, -, rules, cover, hvalue⟩ := delete_released (.inl hok)
  have hblock := Prefix.isBlock_of a hd
  rw [hvalue] at hok hafter ⊢
  by_cases hshallow : (Prefix.of a depth).depth ≤ bucketDepth
  · -- a rule that its buckets can hold leaves every group where it is
    refine absurd ?_ hafter
    unfold withdraw
    rw [if_pos hshallow]
    exact (entryAt_sweepBuckets_eq_group (Entry.plain_cede _ _) (Prefix.bucketRange_fst_le _)
      (Prefix.bucketRange_le hblock hshallow) hi).mpr hbefore
  · unfold withdraw at hok hafter ⊢
    rw [if_neg hshallow] at hok hafter ⊢
    exact removeDeep_unlinked (p := s.plane) ht hq hok hbefore hafter

/-- After every history a removal that finds no room for its group is complete all the same, and one
that succeeds and unlinks a group leaves none stranded. -/
theorem stranding_delete (name : String) (config : Config) (hgroups : config.groups ≤ maxGroups)
    (maxReaders : Nat) (turns : List Turn) (a : Address) (depth : Nat) (meanwhile : Meanwhile) :
    let s := (fresh name config maxReaders).after turns
    let out := (s.delete a depth meanwhile).value
    (out.answer = .error .reclamationUnavailable → ∃ q g, s.Stranding out.state a depth q g) ∧
      ∀ q, s.table.pool.reclaimer = .deferring q → out.answer = .ok () →
        ∀ i < bucketCount, ∀ g, s.table.arrays.entryAt i = .group g →
          out.state.table.arrays.entryAt i ≠ .group g → out.state.table.pool.stranded = [] := by
  intro s out
  have hholds : s.Holds _ := holds_fresh_run name hgroups maxReaders turns
  have htight := (upkeep_after (upkeep_fresh name config maxReaders) turns).tight
  exact ⟨fun herror => stranding_of_unavailable hholds htight herror,
    fun q hq hok i hi g hbefore hafter => stranded_of_unlinked htight hq hok hi hbefore hafter⟩

/-- The queue of one place takes the group of the first rule and turns away that of the second. -/
theorem stranding_delete_exhausted :
    let first := (fresh "edge" ⟨8, 3⟩ 1).after exhaustion.dropLast.dropLast
    let second := (fresh "edge" ⟨8, 3⟩ 1).after exhaustion.dropLast
    (first.delete 0x0A000101 32 fun _ => []).value.state.table.pool.stranded = [] ∧
      ∃ q g, second.Stranding (second.delete 0x0A000201 32 fun _ => []).value.state 0x0A000201 32
        q g := by
  have herror : (((fresh "edge" ⟨8, 3⟩ 1).after exhaustion.dropLast).delete 0x0A000201 32
      fun _ => []).value.answer = .error .reclamationUnavailable := by decide +kernel
  obtain ⟨hq, hok, hbefore, hafter⟩ :
      ((fresh "edge" ⟨8, 3⟩ 1).after exhaustion.dropLast.dropLast).table.pool.reclaimer =
        .deferring { capacity := 1, threshold := 1, batch := 1 } ∧
      (((fresh "edge" ⟨8, 3⟩ 1).after exhaustion.dropLast.dropLast).delete 0x0A000101 32
        fun _ => []).value.answer = .ok () ∧
      ((fresh "edge" ⟨8, 3⟩ 1).after exhaustion.dropLast.dropLast).table.arrays.entryAt
        (bucket 0x0A000101) = .group 1 ∧
      (((fresh "edge" ⟨8, 3⟩ 1).after exhaustion.dropLast.dropLast).delete 0x0A000101 32
        fun _ => []).value.state.table.arrays.entryAt (bucket 0x0A000101) ≠ .group 1 := by
    decide +kernel
  refine ⟨?_, (stranding_delete "edge" ⟨8, 3⟩ (by decide) 1 exhaustion.dropLast 0x0A000201 32 _).1
    herror⟩
  exact (stranding_delete "edge" ⟨8, 3⟩ (by decide) 1 exhaustion.dropLast.dropLast 0x0A000101 32
    _).2 _ hq hok (bucket 0x0A000101) (bucket_lt _) 1 hbefore hafter

end Router

end Dir248
