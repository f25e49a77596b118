import Dir248.Proofs.Groups.Faultless
import Dir248.Proofs.Table.Failures

/-!
# A table relies on nothing that fails

Every operation states the facts it relies on: that it stays inside its arrays, that no count
goes below zero, that a rule deeper than a bucket finds its group. Each of them rests on another
invariant. The windows of the store are packed, the groups are accounted for, and a bucket with
a deep rule names a group. A table that holds a map of rules has all of them, and it holds a map
after every turn. So nothing that is stated ever fails.

* **`Plane.faultless_insertShallow`** to **`Plane.faultless_removeDeep`** — the ways through the
  arrays.
* **`Router.faultless_undo`** — only a rule that was not there before is ever taken back.
* **`Router.faultless_perform`**, **`Router.faultless_run`** — commands and histories.
-/

namespace Dir248

open Arrays Traced

namespace Plane

variable {p : Plane}

/-! ### Rules that a bucket can hold -/

theorem faultless_insertShallow (ha : p.desk.Accounted) {r : Rule} (hr : r.route.IsBlock)
    (hd : r.route.depth ≤ bucketDepth) (hf : r.answer.Fits) : (p.insertShallow r).Faultless :=
  (faultless_sweepBuckets (Entry.storable_claim hf) (Slot.storable_claim hf) ha
    (Prefix.bucketRange_fst_le _) (Prefix.bucketRange_le hr hd)).bind
      ((faultless_log _).bind (faultless_pure _))

theorem faultless_removeShallow (ha : p.desk.Accounted) {route : Prefix} (hr : route.IsBlock)
    (hd : route.depth ≤ bucketDepth) {cover : Option Route} (hc : Covering cover route.depth) :
    (p.removeShallow route cover).Faultless :=
  (faultless_sweepBuckets (Entry.storable_cede _ hc.fits) (Slot.storable_cede _ hc.fits) ha
    (Prefix.bucketRange_fst_le _) (Prefix.bucketRange_le hr hd)).bind (faultless_pure _)

/-! ### Rules that need a group -/

/-- The slots of a deep rule are slots of the table when its group is a group of the table. -/
theorem slotRange_le {t : Arrays} {g : Nat} (hg : g < t.groups) {route : Prefix}
    (hr : route.IsBlock) (hd : bucketDepth < route.depth) :
    (route.slotRange g).2 ≤ t.groups * groupSize :=
  Nat.le_trans (slotRange_within hr hd g).2.2 (group_end_le hg)

theorem faultless_linkGroup {g : Nat} (hg : g < p.arrays.groups)
    (hgroups : p.arrays.groups ≤ maxGroups) {current : Entry}
    (hcurrent : ∀ q, current = .leaf q → q.Fits) {r : Rule} (hr : r.route.IsBlock)
    (hd : bucketDepth < r.route.depth) (hf : r.answer.Fits) :
    (p.linkGroup g current r).Faultless := by
  have hfilled : ∀ t : Arrays, t.groups = p.arrays.groups → (t.store
      (.slots (groupStart g + offset r.route.base) (span r.route.depth) (.leaf r.answer))
        ).Faultless :=
    fun t ht => faultless_store
      (admits_slots (slotRange_le (g := g) (by rwa [ht]) hr hd) (Slot.cut_leaf hf))
  have hlinked : ∀ t : Arrays, (t.store
      (.buckets (bucket r.route.base) 1 (.group g))).Faultless := by
    intro t
    refine faultless_store (admits_buckets (Nat.succ_le_of_lt (bucket_lt _)) ?_)
    rw [Entry.cut, Nat.mod_eq_of_lt (Nat.lt_of_lt_of_le hg hgroups)]
  -- what comes after the inherited answers
  have hrest : ∀ t : Arrays, t.groups = p.arrays.groups → (do
      let filled ← t.store
        (.slots (groupStart g + offset r.route.base) (span r.route.depth) (.leaf r.answer))
      let arrays ← filled.store (.buckets (bucket r.route.base) 1 (.group g))
      Traced.log (.groupLinked g (bucket r.route.base))
      pure { p with arrays } : Traced Plane).Faultless :=
    fun t ht => (hfilled t ht).bind
      ((hlinked _).bind ((faultless_log _).bind (faultless_pure _)))
  unfold linkGroup
  cases current with
  | leaf q =>
    exact (faultless_storeGroup hg (Slot.cut_leaf (hcurrent q rfl))).bind
      (hrest _ (groups_apply ..))
  | invalid => exact (faultless_pure _).bind (hrest _ rfl)
  | group g' => exact (faultless_pure _).bind (hrest _ rfl)

theorem faultless_insertDeep (ha : p.desk.Accounted) {r : Rule} (hr : r.route.IsBlock)
    (hd : bucketDepth < r.route.depth) (hf : r.answer.Fits) : (p.insertDeep r).Faultless := by
  unfold insertDeep
  split
  · next g hg =>
    have hlt := (ha.named (bucket_lt _) hg).1
    have hle := (slotRange_within hr hd g).2.1
    exact (faultless_sweepSlots (Slot.storable_claim hf) ha.groups_le hle
      (slotRange_le hlt hr hd)).bind (faultless_pure _)
  · next current hno =>
    have hacc := accounted_of_chain (allocate_moves p) ha
    have hcurrent : ∀ q, p.arrays.entryAt (bucket r.route.base) = .leaf q → q.Fits :=
      fun q hq => fits_of_leaf hq
    refine (faultless_allocate ha).bind ?_
    generalize p.allocate.value = out at hacc ⊢
    obtain ⟨s, answer⟩ := out
    cases answer with
    | error e => exact faultless_pure _
    | ok g =>
      have hmem : g ∈ (Desk.mk s s.pool.stranded [g]).away :=
        Desk.mem_away_of_safe List.mem_cons_self
      exact (faultless_linkGroup (hacc.kept hmem).1 hacc.groups_le hcurrent hr hd hf).bind
        (faultless_pure _)

/-- The entry that takes a group's place was read from the group's words. -/
theorem cut_of_foldedEntry {t : Arrays} {g : Nat} (hg : g < maxGroups) {left : Entry}
    (h : foldedEntry (t.verdict g) = some left) : left.cut = left := by
  obtain ⟨r, rfl, hfold⟩ := (foldedEntry_verdict t hg left).mp h
  refine Entry.cut_ofRoute fun q hq => ?_
  have hfirst := hfold.2 0 (by decide)
  rw [hq] at hfirst
  exact fits_of_answer hfirst

/-- A deep rule goes without a fault when its bucket names a group. -/
theorem faultless_removeDeep (ha : p.desk.Accounted) {route : Prefix} (hr : route.IsBlock)
    (hd : bucketDepth < route.depth) {cover : Option Route} (hc : Covering cover route.depth)
    (hdeep : p.arrays.Deep (bucket route.base)) (meanwhile : Meanwhile) :
    (p.removeDeep route cover meanwhile).Faultless := by
  obtain ⟨g, hg⟩ := hdeep
  have hlt := (ha.named (bucket_lt _) hg).1
  have hmax := ha.lt_maxGroups hlt
  have hle := (slotRange_within hr hd g).2.1
  have hswept : (p.setArrays (swept p.arrays route cover g)).desk.Accounted :=
    Account.within ha (swept_within hr hd hmax)
  have hentry : (swept p.arrays route cover g).entryAt (bucket route.base) = .group g :=
    (entryAt_swept _).trans hg
  unfold removeDeep
  rw [hg]
  refine (faultless_sweepSlots (Slot.storable_cede _ hc.fits) ha.groups_le hle
    (slotRange_le hlt hr hd)).bind ?_
  split
  · exact faultless_pure _
  · next left hfold =>
    have hcut := cut_of_foldedEntry hmax hfold
    have hunlinked := accounted_unlinked hswept (bucket_lt _) hentry (cut_foldedEntry hfold)
    refine (faultless_store (admits_buckets (Nat.succ_le_of_lt (bucket_lt _)) hcut)).bind ?_
    exact (faultless_log _).bind (faultless_release hunlinked meanwhile)

end Plane

namespace Router

open Plane

variable {s : Router} {m : RuleMap}

/-! ### Adding -/

/-- A rule that is taken back was not there before: had it been, its bucket would name a group,
and the arrays would have followed. -/
theorem faultless_undo (h : s.Holds m) {r : Rule} (hr : r.route.IsBlock)
    (hd : bucketDepth < r.route.depth) (hno : ¬ s.table.arrays.Deep (bucket r.route.base))
    {rules : RuleStore} {stored : Stored} (hadded : s.table.rules.Added r ⟨rules, .ok stored⟩) :
    (undo rules r.route.depth stored).Faultless := by
  cases hadded with
  | known => exact faultless_pure _
  | @changed place previous hplace hroute hmap =>
    rw [h.toMap] at hmap
    exact absurd (h.deep_of_mem hmap hd) hno
  | fresh hmap hnew hroom =>
    have hpacked := h.wellFormed.packed
    have hplace := hpacked.placeFor_mem hr.depth
    exact (faultless_require ((hpacked.insert hr.depth hroom).canRemove hr.depth hplace) _).bind
      (faultless_pure _)

theorem faultless_added (s : Router) (r : Rule) (outcome : AddOutcome) :
    (s.added r outcome).Faultless := by
  cases outcome <;> rfl

/-- The arrays follow the store, and only an insertion that finds no group takes a rule back. -/
theorem faultless_project (ha : s.plane.desk.Accounted) {r : Rule} (hr : r.route.IsBlock)
    (hf : r.answer.Fits) (stored : Stored) (outcome : AddOutcome)
    (hundo : bucketDepth < r.route.depth → ¬ s.table.arrays.Deep (bucket r.route.base) →
      (undo s.table.rules r.route.depth stored).Faultless) :
    (s.project r stored outcome).Faultless := by
  unfold project
  split
  · next hd => exact (faultless_insertShallow ha hr hd hf).bind (faultless_added ..)
  · next hd =>
    have hdeep := Nat.lt_of_not_le hd
    have hrefused := fun e => (insertDeep_error_iff s.plane r e).mp
    refine (faultless_insertDeep ha hr hdeep hf).bind ?_
    generalize (s.plane.insertDeep r).value = out at hrefused ⊢
    obtain ⟨p, answer⟩ := out
    cases answer with
    | ok u => exact faultless_added ..
    | error e =>
      exact (hundo hdeep (hrefused e rfl).1).bind ((faultless_log _).bind (faultless_pure _))

theorem faultless_addRule (h : s.Holds m) {r : Rule} (hr : r.route.IsBlock)
    (hh : r.nextHop ≤ maxNextHop) : (s.addRule r).Faultless := by
  have hadded := s.table.rules.added_add hr.depth
  have hf := fits_answer hr hh
  refine Faultless.bind (h.wellFormed.packed.faults_add hr.depth) ?_
  generalize (s.table.rules.add r).value = out at hadded
  obtain ⟨rules, answer⟩ := out
  cases answer with
  | error e => exact (faultless_log _).bind (faultless_pure _)
  | ok stored =>
    cases stored with
    | unchanged => exact (faultless_log _).bind (faultless_pure _)
    | inserted place =>
      exact faultless_project (s := s.setRules rules) h.accounted hr hf _ _
        fun hd hno => faultless_undo h hr hd hno hadded
    | updated place previous =>
      exact faultless_project (s := s.setRules rules) h.accounted hr hf _ _
        fun hd hno => faultless_undo h hr hd hno hadded

theorem faultless_add (h : s.Holds m) (a : Address) (depth nextHop : Nat) :
    (s.add a depth nextHop).Faultless := by
  unfold add
  split
  · exact faultless_pure _
  · next hd =>
    split
    · exact faultless_pure _
    · next hh =>
      exact faultless_addRule h (Prefix.isBlock_of a (Decidable.not_not.mp hd))
        (Nat.le_of_not_lt hh)

/-! ### Deleting -/

theorem faultless_withdraw (h : s.Holds m) {q : Prefix} {hop : Nat} (hq : m q = some hop)
    (rules : RuleStore) (meanwhile : Meanwhile) :
    ((s.setRules rules).withdraw q (m.best q.base (q.depth - 1)) meanwhile).Faultless := by
  have hblock := h.valid.isBlock hq
  have hcover := covering_best h.valid hblock
  unfold withdraw
  split
  · next hd => exact (faultless_removeShallow h.accounted hblock hd hcover).bind (faultless_pure _)
  · next hd =>
    have hdeep := Nat.lt_of_not_le hd
    exact (faultless_removeDeep h.accounted hblock hdeep hcover (h.deep_of_mem hq hdeep)
      meanwhile).bind (faultless_pure _)

theorem faultless_deleteAt (h : s.Holds m) {place : Nat} {q : Prefix} (hq : q.IsBlock)
    (hplace : s.table.rules.find? q = some place) (meanwhile : Meanwhile) :
    (s.deleteAt place q meanwhile).Faultless := by
  have hmem := (RuleStore.find?_eq_some hplace).1
  have hmq : m q = some (s.table.rules.cell place).nextHop := by
    rw [← h.toMap, RuleStore.toMap_of_find? hq.depth, hplace, Option.map_some]
  have hwithdraw := faultless_withdraw h hmq (s.table.rules.remove place q.depth) meanwhile
  rw [← cover?_of_erased hq (h.toMap_remove hq hplace)] at hwithdraw
  exact (faultless_require (h.wellFormed.packed.canRemove hq.depth hmem) _).bind
    ((faultless_publish _).bind ((faultless_log _).bind hwithdraw))

theorem faultless_delete (h : s.Holds m) (a : Address) (depth : Nat) (meanwhile : Meanwhile) :
    (s.delete a depth meanwhile).Faultless := by
  unfold delete
  split
  · exact faultless_pure _
  · next hd =>
    split
    · exact faultless_pure _
    · next place hplace =>
      exact faultless_deleteAt h (Prefix.isBlock_of a (Decidable.not_not.mp hd)) hplace meanwhile

theorem faultless_deleteAll (s : Router) (meanwhile : Meanwhile) :
    (s.deleteAll meanwhile).Faultless := by
  have hclear : s.table.arrays.clearBuckets.Faultless :=
    faultless_store (admits_buckets (Nat.le_of_eq (Nat.zero_add _)) rfl)
  exact (faultless_logIf _ _).bind (hclear.bind ((faultless_reset _ meanwhile).bind
    ((faultless_log _).bind (faultless_pure _))))

/-! ### Commands and histories -/

theorem faultless_bind (s : Router) (mode : ReclaimMode) : (s.bind mode).Faultless := by
  refine Faultless.bind ?_ (faultless_pure _)
  unfold Pool.bind
  dsimp only
  split
  · exact faultless_pure _
  · split
    · exact (faultless_log _).bind (faultless_pure _)
    · split
      · exact (faultless_log _).bind (faultless_pure _)
      · exact faultless_pure _

theorem faultless_perform (h : s.Holds m) (c : Command) (meanwhile : Meanwhile) :
    (s.perform c meanwhile).Faultless := by
  cases c with
  | add a depth nextHop => exact (faultless_add h a depth nextHop).bind (faultless_pure _)
  | delete a depth => exact (faultless_delete h a depth meanwhile).bind (faultless_pure _)
  | deleteAll => exact (faultless_deleteAll s meanwhile).bind (faultless_pure _)
  | reclaim =>
    have hreclaim : s.reclaim.Faultless :=
      (Plane.faultless_reclaim h.accounted).bind (faultless_pure _)
    exact hreclaim.bind (faultless_pure _)
  | bind mode => exact (faultless_bind s mode).bind (faultless_pure _)
  | settle =>
    have hsettle : (s.settle meanwhile).Faultless :=
      (Plane.faultless_drain h.accounted meanwhile).bind ((faultless_log _).bind (faultless_pure _))
    exact hsettle.bind (faultless_pure _)

theorem faultless_take (h : s.Holds m) (turn : Turn) : (s.take turn).Faultless := by
  cases turn with
  | write c meanwhile => exact (faultless_perform h c meanwhile).bind (faultless_pure _)
  | read step => rfl
  | grace => exact faultless_pure _

/-- Whatever a history does, nothing that it relies on fails. -/
theorem faultless_run (h : s.Holds m) (turns : List Turn) : (s.run turns).Faultless := by
  induction turns generalizing s m with
  | nil => exact faultless_pure _
  | cons turn turns ih =>
    exact (faultless_take h turn).bind ((ih (holds_take h turn)).bind (faultless_pure _))

end Router

end Dir248
