import Dir248.Proofs.Table.Holdings

/-!
# Every group is in one hand

In every state of a table each group is free, or named by one bucket, or waits for its
readers in the defer queue or among the stranded groups, and the count of groups in use
says how many are not free.

* **`Hand`**, **`Table.InHand`** — the three hands a group can be in.
* **`Table.Partitioned`** — all there is to say about hands, marks and the count.
* **`Router.partitioned_after`** — every history leaves the groups so.
-/

namespace Dir248

/-- The groups that wait, in the defer queue and stranded. -/
def Pool.kept (p : Pool) : List Nat := p.inQueue ++ p.stranded

theorem Pool.length_kept (p : Pool) : p.kept.length = p.pending := by
  rw [kept, List.length_append, length_inQueue, pending]

/-- Where a group is. -/
inductive Hand where
  | free
  | linked
  | pending
deriving Repr, DecidableEq

namespace Table

/-- A free group is all zero, a linked one is named by exactly one bucket, and a pending one
waits exactly once. -/
def InHand (t : Table) (g : Nat) : Hand → Prop
  | .free => t.arrays.Blank g
  | .linked => ∃! i, i < bucketCount ∧ t.arrays.entryAt i = .group g
  | .pending => t.pool.kept.count g = 1

/-- Each group is in one hand, none is named or kept twice, the group bits tell the free
groups from the others, and the others are counted. -/
structure Partitioned (t : Table) : Prop where
  hand : ∀ {g}, g < t.arrays.groups → ∃! hand, t.InHand g hand
  unshared : ∀ {i j g}, i < bucketCount → j < bucketCount → t.arrays.entryAt i = .group g →
    t.arrays.entryAt j = .group g → i = j
  nodup : t.pool.kept.Nodup
  marked : ∀ {g}, t.InHand g .linked ∨ t.InHand g .pending → t.arrays.Marked g
  unmarked : ∀ {g}, t.InHand g .free → ∀ {o}, o < groupSize →
    (t.arrays.slotAt (groupStart g + o)).occupied = false
  named_lt : ∀ {i g}, i < bucketCount → t.arrays.entryAt i = .group g → g < t.arrays.groups
  kept_lt : ∀ {g}, g ∈ t.pool.kept → g < t.arrays.groups
  count : t.pool.inUse = t.arrays.linkedGroups.card + t.pool.pending
  inUse_le : t.pool.inUse ≤ t.arrays.groups

open Arrays

section Partition

variable {t : Table}

theorem inHand_linked_iff (h : t.arrays.Account t.pool.inUse t.pool.kept) (g : Nat) :
    t.InHand g .linked ↔ t.arrays.Names g := by
  constructor
  · intro h'
    obtain ⟨i, hi, -⟩ := h'
    exact ⟨i, hi⟩
  · intro h'
    obtain ⟨i, hi, hname⟩ := h'
    exact ⟨i, ⟨hi, hname⟩, fun j hj => h.unshared hj.1 hi hj.2 hname⟩

theorem inHand_pending_iff (h : t.arrays.Account t.pool.inUse t.pool.kept) (g : Nat) :
    t.InHand g .pending ↔ g ∈ t.pool.kept := by
  constructor
  · intro hcount
    exact List.count_pos_iff.mp (Nat.lt_of_lt_of_eq Nat.one_pos hcount.symm)
  · exact List.count_eq_one_of_mem h.nodup

theorem inHand_free_iff (h : t.arrays.Account t.pool.inUse t.pool.kept)
    (hc : t.arrays.Clean t.pool.kept) {g : Nat} (hg : g < t.arrays.groups) :
    t.InHand g .free ↔ ¬ t.arrays.Names g ∧ g ∉ t.pool.kept := by
  constructor
  · intro hblank
    refine ⟨?_, fun hmem => hblank.not_marked (h.kept hmem).2⟩
    intro h'
    obtain ⟨i, hi, hname⟩ := h'
    exact hblank.not_marked (h.named hi hname).2.1
  · intro h'
    obtain ⟨hname, hkept⟩ := h'
    exact hc g hg hname hkept

/-- The three hands follow from the account and the blank groups. -/
theorem partitioned (h : t.arrays.Account t.pool.inUse t.pool.kept)
    (hc : t.arrays.Clean t.pool.kept) : t.Partitioned := by
  refine ⟨fun {g} hg => ?_, h.unshared, h.nodup, fun {g} hhand => ?_, fun {g} hfree {o} ho => ?_,
    fun hi hname => (h.named hi hname).1, fun hmem => (h.kept hmem).1, ?_, h.inUse_le⟩
  · have hlinked := inHand_linked_iff h g
    have hpending := inHand_pending_iff h g
    have hfree := inHand_free_iff h hc hg
    by_cases hname : t.arrays.Names g
    · have hkept : g ∉ t.pool.kept := fun hmem => h.not_names hmem hname
      refine ⟨.linked, hlinked.mpr hname, fun hand hin => ?_⟩
      cases hand with
      | free => exact absurd hname (hfree.mp hin).1
      | linked => rfl
      | pending => exact absurd (hpending.mp hin) hkept
    · by_cases hkept : g ∈ t.pool.kept
      · refine ⟨.pending, hpending.mpr hkept, fun hand hin => ?_⟩
        cases hand with
        | free => exact absurd hkept (hfree.mp hin).2
        | linked => exact absurd (hlinked.mp hin) hname
        | pending => rfl
      · refine ⟨.free, hfree.mpr ⟨hname, hkept⟩, fun hand hin => ?_⟩
        cases hand with
        | free => rfl
        | linked => exact absurd (hlinked.mp hin) hname
        | pending => exact absurd (hpending.mp hin) hkept
  · rw [inHand_linked_iff h, inHand_pending_iff h] at hhand
    rcases hhand with ⟨i, hi, hname⟩ | hmem
    · exact (h.named hi hname).2.1
    · exact (h.kept hmem).2
  · rw [(get_eq_zero_iff _ _).mp (hfree o ho)]
  · rw [h.card_linkedGroups, ← Pool.length_kept]
    exact h.count

end Partition

end Table

/-! ### Histories -/

theorem TableMove.groups {d d' : Desk} {es : List Event} (h : TableMove d es d') :
    d'.plane.arrays.groups = d.plane.arrays.groups := by
  cases h with
  | pool h =>
    obtain ⟨harrays, -⟩ | ⟨g, harrays, -⟩ | ⟨g, -, -, harrays, -⟩ := h.cases
    · rw [harrays]
    · rw [harrays, Arrays.groups_apply]
    · rw [harrays, Arrays.groups_apply]
  | grace | read | bind => rfl
  | slots | buckets | link | unlink | forget | wipe => exact Arrays.groups_apply ..

namespace Router

/-- No history changes the number of groups. -/
theorem groups_after (s : Router) (turns : List Turn) :
    (s.after turns).table.arrays.groups = s.table.arrays.groups :=
  (run_moves s turns).keeps (P := fun d => d.plane.arrays.groups = s.table.arrays.groups)
    (fun hmove h => hmove.groups.trans h) rfl

theorem away_desk (s : Router) : s.plane.desk.away = s.table.pool.kept := by
  unfold Desk.away Plane.desk
  rw [List.append_nil]
  rfl

/-- Between two operations the groups kept away are those that wait. -/
theorem account_kept {s : Router} (h : s.plane.desk.Accounted) :
    s.table.arrays.Account s.table.pool.inUse s.table.pool.kept := by
  rw [← away_desk]
  exact h

theorem clean_kept {s : Router} (h : s.plane.desk.Clean) :
    s.table.arrays.Clean s.table.pool.kept := by
  rw [← away_desk]
  exact h

/-- After every history each group is in exactly one hand, and those in use are counted. -/
theorem partitioned_after (name : String) (config : Config)
    (hgroups : config.groups ≤ maxGroups) (maxReaders : Nat) (turns : List Turn) :
    ((fresh name config maxReaders).after turns).table.arrays.groups = config.groups ∧
      ((fresh name config maxReaders).after turns).table.Partitioned := by
  have haccount := accounted_after (accounted_fresh name hgroups maxReaders) turns
  have hclean := clean_after (accounted_fresh name hgroups maxReaders)
    (clean_fresh name config maxReaders) turns
  exact ⟨groups_after _ turns, Table.partitioned (account_kept haccount) (clean_kept hclean)⟩

/-- A deleted rule's group is turned away by a queue of one place while a reader is inside. -/
theorem partitioned_after_stranding :
    ((fresh "edge" ⟨4, 2⟩ 1).after
      [.write (.bind (.defer 1 1 1)) fun _ => [], .read .register, .read (.online 0),
        .write (.add 0x0A000001 32 7) fun _ => [], .write (.add 0x0A000101 32 8) fun _ => [],
        .write (.delete 0x0A000001 32) fun _ => [],
        .write (.delete 0x0A000101 32) fun _ => []]).table.Partitioned :=
  (partitioned_after "edge" ⟨4, 2⟩ (by decide) 1 _).2

end Router

end Dir248
