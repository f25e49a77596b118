import Dir248.Proofs.Arrays.Account
import Dir248.Proofs.Groups.Moves

/-!
# The moves of the pool and the account of the groups

The groups kept away from the first level are those in the defer queue and those on the
desk. Most moves only carry them from one list to another. A free and a claim store into one
group, which no bucket names, so a reader that starts afterwards reads what it would have
read before.

* **`Desk.away`**, **`Desk.Accounted`** — the groups kept away, and their account.
* **`Desk.Orderly`** — the part of the account that the answers depend on.
* **`PoolMove.cases`** — what a move does to the arrays and to the groups kept away.
* **`Arrays.SameReads`** — the same first level, and the same slots in the groups it names.
* **`PoolMove.orderly`**, **`PoolMove.accounted`**, **`PoolMove.sameReads`** — what every move
  keeps.
-/

namespace Dir248

/-- The groups in the defer queue. -/
def Pool.inQueue (p : Pool) : List Nat :=
  match p.reclaimer with
  | .deferring q => q.pending.map Ticket.item
  | _ => []

theorem Pool.inQueue_of_deferring {p : Pool} {q : DeferQueue} (h : p.reclaimer = .deferring q) :
    p.inQueue = q.pending.map Ticket.item := by
  rw [inQueue, h]

theorem Pool.length_inQueue (p : Pool) : p.inQueue.length = p.queued := by
  cases hq : p.reclaimer with
  | deferring q =>
    rw [inQueue_of_deferring hq, List.length_map, DeferQueue.length_pending, queued, hq]
  | _ =>
    rw [inQueue, queued, hq]
    rfl

namespace Desk

/-- The groups that are neither free nor named by a bucket. -/
def away (d : Desk) : List Nat := d.plane.pool.inQueue ++ (d.held ++ d.safe)

/-- A safe group is off the table. -/
theorem mem_away_of_safe {d : Desk} {g : Nat} (h : g ∈ d.safe) : g ∈ d.away :=
  List.mem_append_right _ (List.mem_append_right _ h)

/-- The account of the groups of a desk. -/
def Accounted (d : Desk) : Prop := d.plane.arrays.Account d.plane.pool.inUse d.away

/-- No group that a desk keeps away is named, and those that are named keep to the order that the
answers depend on. -/
def Orderly (d : Desk) : Prop := d.plane.arrays.Orderly d.away

theorem Accounted.orderly {d : Desk} (h : d.Accounted) : d.Orderly := Arrays.Account.orderly h

/-- The free groups of a desk are blank. -/
def Clean (d : Desk) : Prop := d.plane.arrays.Clean d.away

end Desk

namespace Arrays

/-- Two states of the arrays in which a reader that starts now reads the same. -/
structure SameReads (t t' : Arrays) : Prop where
  groups : t'.groups = t.groups
  buckets : t'.buckets = t.buckets
  slots : ∀ {g}, t.Names g → ∀ {o}, o < groupSize →
    t'.slotAt (groupStart g + o) = t.slotAt (groupStart g + o)

variable {t t' t'' : Arrays}

theorem SameReads.refl (t : Arrays) : SameReads t t := ⟨rfl, rfl, fun _ _ _ => rfl⟩

theorem entryAt_of_buckets (h : t'.buckets = t.buckets) (i : Nat) :
    t'.entryAt i = t.entryAt i := by
  rw [Arrays.entryAt, h]
  rfl

theorem SameReads.entryAt (h : SameReads t t') (i : Nat) : t'.entryAt i = t.entryAt i :=
  entryAt_of_buckets h.buckets i

theorem SameReads.names (h : SameReads t t') (g : Nat) : t'.Names g ↔ t.Names g := by
  unfold Names
  simp only [h.entryAt]

theorem SameReads.linkedBuckets (h : SameReads t t') : t'.linkedBuckets = t.linkedBuckets := by
  ext i
  rw [mem_linkedBuckets, mem_linkedBuckets, h.entryAt]

theorem SameReads.trans (h : SameReads t t') (h' : SameReads t' t'') : SameReads t t'' := by
  refine ⟨h'.groups.trans h.groups, h'.buckets.trans h.buckets, fun hg _ ho => ?_⟩
  rw [h'.slots ((h.names _).mpr hg) ho, h.slots hg ho]

/-- A lookup reads nothing else. -/
theorem SameReads.answer (h : SameReads t t') (a : Address) : t'.answer a = t.answer a := by
  unfold Arrays.answer
  rw [h.entryAt]
  split
  · rfl
  · rfl
  · next g hg => rw [h.slots ⟨bucket a, bucket_lt a, hg⟩ (offset_lt a)]

/-- A store into a group that no bucket names. -/
theorem sameReads_apply (s : Slot) {g start count : Nat} (hg : ¬ t.Names g)
    (hstart : groupStart g ≤ start) (hend : start + count ≤ groupStart g + groupSize) :
    SameReads t (t.apply (.slots start count s)) := by
  refine ⟨rfl, rfl, fun {g'} hg' {o} ho => ?_⟩
  obtain ⟨i, hi, hname⟩ := hg'
  have hin := inGroup_add g' ho
  rw [slotAt_store t _ _ s _ (hin.lt (Entry.group_lt hname)), if_neg]
  intro hrange
  obtain rfl : g' = g := hin.unique ⟨by omega, by omega⟩
  exact hg ⟨i, hi, hname⟩

end Arrays

/-! ### What a move does -/

/-- What a move does to the arrays and to the groups kept away. -/
theorem PoolMove.cases {d d' : Desk} {es : List Event} (h : PoolMove d es d') :
    (d'.plane.arrays = d.plane.arrays ∧ d'.plane.pool.inUse = d.plane.pool.inUse ∧
      d.away.Perm d'.away) ∨
    (∃ g, d'.plane.arrays = d.plane.arrays.apply (.slots (groupStart g) groupSize {}) ∧
      d'.plane.pool.inUse = d.plane.pool.inUse - 1 ∧ d.away.Perm (g :: d'.away)) ∨
    (∃ g, g < d.plane.arrays.groups ∧
      (d.plane.arrays.slotAt (groupStart g)).occupied = false ∧
      d'.plane.arrays = d.plane.arrays.apply (.slots (groupStart g) groupSize .empty) ∧
      d'.plane.pool.inUse = d.plane.pool.inUse + 1 ∧ d'.away.Perm (g :: d.away)) := by
  -- where groups only change hands, each of them is counted as often as before
  cases h with
  | quiet h => exact .inl ⟨rfl, rfl, .refl _⟩
  | sort hh hs => exact .inl ⟨rfl, rfl, (hh.append hs).append_left _⟩
  | restrand stranded => exact .inl ⟨rfl, rfl, .refl _⟩
  | @pass p held safe q max hq =>
    obtain ⟨xs, hpending, hfreed, -⟩ := q.takeSafe_spec p.tracker max
    refine .inl ⟨rfl, rfl, List.perm_iff_count.mpr fun x => ?_⟩
    have hqueue : (p.setQueue (q.takeSafe p.tracker max).queue).pool.inQueue = _ :=
      Pool.inQueue_of_deferring rfl
    simp only [Desk.away, hqueue, Pool.inQueue_of_deferring hq, hpending, hfreed, List.map_append,
      List.count_append]
    omega
  | @push p held safe q g hq hroom =>
    refine .inl ⟨rfl, rfl, List.perm_iff_count.mpr fun x => ?_⟩
    have hqueue : (p.setQueue { q with
        waiting := q.waiting ++ [⟨p.tracker.start.token, g⟩] }).pool.inQueue =
        q.pending.map Ticket.item ++ [g] := by
      rw [Pool.inQueue_of_deferring rfl, DeferQueue.pending, ← List.append_assoc, List.map_append]
      rfl
    simp only [Desk.away, hqueue, Pool.inQueue_of_deferring hq, List.count_append,
      List.count_cons, List.count_nil]
    omega
  | @empty p held safe q hq =>
    refine .inl ⟨rfl, rfl, List.perm_iff_count.mpr fun x => ?_⟩
    have hqueue : (p.setQueue { q with parked := none, waiting := [] }).pool.inQueue = [] := rfl
    simp only [Desk.away, hqueue, Pool.inQueue_of_deferring hq, List.count_append, List.count_nil]
    omega
  | wait meanwhile =>
    refine .inl ⟨rfl, rfl, List.perm_iff_count.mpr fun x => ?_⟩
    simp only [Desk.away, List.count_append]
    omega
  | unwatched hp =>
    refine .inl ⟨rfl, rfl, List.perm_iff_count.mpr fun x => ?_⟩
    simp only [Desk.away, List.count_append]
    omega
  | @free p held safe g =>
    refine .inr (.inl ⟨g, rfl, rfl, ?_⟩)
    show (p.pool.inQueue ++ (held ++ g :: safe)).Perm (g :: (p.pool.inQueue ++ (held ++ safe)))
    rw [← List.append_assoc, ← List.append_assoc]
    exact List.perm_middle
  | @claim p held safe g hg hfree =>
    refine .inr (.inr ⟨g, hg, hfree, rfl, rfl, ?_⟩)
    show (p.pool.inQueue ++ (held ++ g :: safe)).Perm (g :: (p.pool.inQueue ++ (held ++ safe)))
    rw [← List.append_assoc, ← List.append_assoc]
    exact List.perm_middle

/-- No move of the pool stores into the first level. -/
theorem PoolMove.buckets {d d' : Desk} {es : List Event} (h : PoolMove d es d') :
    d'.plane.arrays.buckets = d.plane.arrays.buckets := by
  obtain ⟨harrays, -⟩ | ⟨g, harrays, -⟩ | ⟨g, -, -, harrays, -⟩ := h.cases <;> rw [harrays] <;> rfl

theorem buckets_of_chain {d d' : Desk} {es : List Event} (h : Chain PoolMove d es d') :
    d'.plane.arrays.buckets = d.plane.arrays.buckets := by
  induction h with
  | nil d => rfl
  | cons hmove _ ih => exact ih.trans hmove.buckets

/-! ### What every move keeps -/

section Kept

variable {d d' : Desk} {es : List Event}

theorem PoolMove.orderly (h : PoolMove d es d') (ho : d.Orderly) : d'.Orderly := by
  unfold Desk.Orderly at ho ⊢
  obtain ⟨harrays, -, hperm⟩ | ⟨g, harrays, -, hperm⟩ | ⟨g, -, hfree, harrays, -, hperm⟩ := h.cases
  · rw [harrays]
    exact ho.perm hperm
  · rw [harrays]
    exact (ho.perm hperm).free
  · rw [harrays]
    exact (ho.claim hfree).perm hperm.symm

theorem PoolMove.accounted (h : PoolMove d es d') (ha : d.Accounted) : d'.Accounted := by
  unfold Desk.Accounted at ha ⊢
  obtain ⟨harrays, huse, hperm⟩ | ⟨g, harrays, huse, hperm⟩ |
    ⟨g, hlt, hfree, harrays, huse, hperm⟩ := h.cases
  · rw [harrays, huse]
    exact ha.perm hperm
  · rw [harrays, huse]
    exact (ha.perm hperm).free
  · rw [harrays, huse]
    exact (ha.claim hlt hfree).perm hperm.symm

theorem PoolMove.clean (h : PoolMove d es d') (ha : d.Accounted) (hc : d.Clean) : d'.Clean := by
  unfold Desk.Clean at hc ⊢
  obtain ⟨harrays, -, hperm⟩ | ⟨g, harrays, -, hperm⟩ | ⟨g, -, -, harrays, -, hperm⟩ := h.cases
  · rw [harrays]
    exact hc.perm hperm
  · rw [harrays]
    exact Arrays.Clean.free (ha.perm hperm) (hc.perm hperm)
  · rw [harrays]
    exact (Arrays.Clean.claim ha hc g).perm hperm.symm

/-- The stores of a move go to groups that no bucket names. -/
theorem PoolMove.sameReads (h : PoolMove d es d') (ho : d.Orderly) :
    d.plane.arrays.SameReads d'.plane.arrays := by
  obtain ⟨harrays, -, -⟩ | ⟨g, harrays, -, hperm⟩ | ⟨g, -, hfree, harrays, -, -⟩ := h.cases
  · rw [harrays]
    exact .refl _
  · rw [harrays]
    exact Arrays.sameReads_apply _ (ho.apart (hperm.mem_iff.mpr List.mem_cons_self))
      (Nat.le_refl _) (Nat.le_refl _)
  · rw [harrays]
    exact Arrays.sameReads_apply _ (ho.not_names_of_not_occupied hfree) (Nat.le_refl _)
      (Nat.le_refl _)

theorem orderly_of_chain (h : Chain PoolMove d es d') (ho : d.Orderly) : d'.Orderly :=
  h.keeps PoolMove.orderly ho

theorem accounted_of_chain (h : Chain PoolMove d es d') (ha : d.Accounted) : d'.Accounted :=
  h.keeps PoolMove.accounted ha

/-- A reader that starts after a chain of moves reads what it would have read before. -/
theorem sameReads_of_chain (h : Chain PoolMove d es d') (ho : d.Orderly) :
    d.plane.arrays.SameReads d'.plane.arrays := by
  induction h with
  | nil d => exact .refl _
  | cons hmove _ ih => exact (hmove.sameReads ho).trans (ih (hmove.orderly ho))

end Kept

end Dir248
