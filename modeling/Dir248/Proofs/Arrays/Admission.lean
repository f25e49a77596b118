import Dir248.Proofs.Projection
import Dir248.Proofs.Table.Moves

/-!
# Stores that stay inside the arrays

A store is admitted when it keeps to its array and its fields to the widths of a word. What a
rule makes of a slot fits because the rule does, and where a slot is cut down to what it held
before, the fields come out of a word. A sweep of buckets goes on into the groups it meets, so
these have to be groups that the table has.

* **`Slot.Storable`**, **`Entry.Storable`** — changes whose results fit a word.
* **`faultless_store`**, **`faultless_sweepSlots`**, **`faultless_sweepBuckets`** — stores and
  sweeps.
-/

namespace Dir248

open Traced

/-! ### Changes that fit -/

/-- Whatever a word holds, what the change makes of it fits a word. -/
def Slot.Storable (change : Slot → Option Slot) : Prop :=
  ∀ {w s}, change (.decode w) = some s → s.cut = s

/-- Whatever a word holds, what the change makes of it fits a word. -/
def Entry.Storable (change : Entry → Option Entry) : Prop :=
  ∀ {w e}, change (.decode w) = some e → e.cut = e

theorem Slot.storable_claim {r : Route} (hr : r.Fits) : Slot.Storable (Slot.claim r) := by
  intro w s h
  unfold Slot.claim at h
  split at h <;> cases h
  exact Slot.cut_leaf hr

theorem Slot.storable_cede (depth : Nat) {cover : Option Route}
    (hc : ∀ c, cover = some c → c.Fits) : Slot.Storable (Slot.cede depth cover) := by
  intro w s h
  unfold Slot.cede at h
  split at h
  · cases h
  · split at h <;> cases h
    · next c => exact Slot.cut_leaf (hc c rfl)
    · -- the slot loses its valid bit and keeps the fields of its word
      have hroute := congrArg Slot.route (Slot.cut_decode w)
      exact congrArg (fun r => Slot.mk false r (Slot.decode w).occupied) hroute

theorem Entry.storable_claim {r : Route} (hr : r.Fits) : Entry.Storable (Entry.claim r) := by
  intro w e h
  unfold Entry.claim at h
  split at h
  · cases h
    exact Entry.cut_leaf hr
  · split at h <;> cases h
    exact Entry.cut_leaf hr
  · cases h

theorem Entry.storable_cede (depth : Nat) {cover : Option Route}
    (hc : ∀ c, cover = some c → c.Fits) : Entry.Storable (Entry.cede depth cover) := by
  intro w e h
  unfold Entry.cede at h
  split at h
  · cases h
    exact Entry.cut_ofRoute hc
  · split at h <;> cases h
    exact Entry.cut_ofRoute hc
  · cases h

namespace Arrays

variable {t : Arrays}

/-! ### Stores -/

theorem faultless_store {w : Write} (h : t.admits w = true) : (t.store w).Faultless :=
  (faultless_require h .slotRange).bind rfl

theorem admits_slots {start count : Nat} {s : Slot} (hend : start + count ≤ t.groups * groupSize)
    (hs : s.cut = s) : t.admits (.slots start count s) = true := by
  simp [admits, Slot.fits, hend, hs]

theorem admits_buckets {start count : Nat} {e : Entry} (hend : start + count ≤ bucketCount)
    (he : e.cut = e) : t.admits (.buckets start count e) = true := by
  simp [admits, Entry.fits, hend, he]

/-- The slots of a group that the table has are slots of the table. -/
theorem group_end_le {g : Nat} (hg : g < t.groups) :
    groupStart g + groupSize ≤ t.groups * groupSize := by
  have hmul := Nat.mul_le_mul_right groupSize (Nat.succ_le_of_lt hg)
  rwa [Nat.succ_mul] at hmul

theorem faultless_storeGroup {g : Nat} (hg : g < t.groups) {s : Slot} (hs : s.cut = s) :
    (t.store (.slots (groupStart g) groupSize s)).Faultless :=
  faultless_store (admits_slots (group_end_le hg) hs)

/-! ### Sweeps -/

theorem groups_slotStep (change : Slot → Option Slot) (t : Arrays) (q : Piece) :
    (slotStep change t q).groups = t.groups := by
  unfold slotStep
  split
  · exact groups_apply ..
  · rfl

theorem faultless_sweepPieces {change : Slot → Option Slot} (hfit : Slot.Storable change)
    (words : Nat → Word) (qs : List Piece) {lo hi : Nat} (hqs : Words.Tiles words lo hi qs)
    (hhi : hi ≤ t.groups * groupSize) : (qs.foldlM (Plane.sweepPiece change) t).Faultless := by
  induction qs generalizing lo t with
  | nil => exact faultless_pure t
  | cons q rest ih =>
    obtain ⟨hstart, -, -, hrest⟩ := hqs
    have hle := hrest.le
    have hfirst : (Plane.sweepPiece change t q).Faultless := by
      unfold Plane.sweepPiece
      split
      · next s hs => exact faultless_store (admits_slots (by omega) (hfit hs))
      · exact faultless_pure t
    rw [List.foldlM_cons]
    refine hfirst.bind ?_
    rw [Plane.value_sweepPiece]
    exact ih hrest (by rwa [groups_slotStep])

/-- A sweep that ends inside the second level stays there. -/
theorem faultless_sweepSlots {change : Slot → Option Slot} (hfit : Slot.Storable change)
    (ht : t.groups ≤ maxGroups) {lo hi : Nat} (hle : lo ≤ hi) (hhi : hi ≤ t.groups * groupSize) :
    (t.sweepSlots lo hi change).Faultless := by
  have hend := Nat.mul_le_mul_right groupSize ht
  have htiles := Words.tiles_range t.slots hle (Nat.le_trans hhi hend)
  exact (faultless_require (decide_eq_true hhi) .slotRange).bind
    (faultless_sweepPieces hfit _ _ htiles hhi)

theorem faultless_sweepGroups {α : Type} {change : Slot → Option Slot} (hfit : Slot.Storable change)
    {g : Nat} (xs : List α) (ht : t.groups ≤ maxGroups) (hg : g < t.groups) :
    (xs.foldlM (fun t _ => sweepGroup t g change) t).Faultless := by
  induction xs generalizing t with
  | nil => exact faultless_pure t
  | cons x xs ih =>
    rw [List.foldlM_cons]
    refine (faultless_sweepSlots hfit ht (Nat.le_add_right ..) (group_end_le hg)).bind ?_
    have hgroups := groups_sweepSlots t (groupStart g) (groupStart g + groupSize) change
    exact ih (hgroups ▸ ht) (hgroups ▸ hg)

theorem faultless_sweepStretches {onEntry : Entry → Option Entry} {onSlot : Slot → Option Slot}
    (hentry : Entry.Storable onEntry) (hslot : Slot.Storable onSlot) (words : Nat → Word)
    (qs : List Piece) {lo hi : Nat} (hqs : Words.Tiles words lo hi qs) (hhi : hi ≤ bucketCount)
    (ht : t.groups ≤ maxGroups)
    (hnamed : ∀ i, lo ≤ i → i < hi → ∀ g, Entry.decode (words i) = .group g → g < t.groups) :
    (qs.foldlM (sweepStretch onEntry onSlot) t).Faultless := by
  induction qs generalizing lo t with
  | nil => exact faultless_pure t
  | cons q rest ih =>
    obtain ⟨hstart, hpos, hword, hrest⟩ := hqs
    have hle := hrest.le
    have hfirst : (sweepStretch onEntry onSlot t q).Faultless := by
      unfold sweepStretch
      split
      · next g hg =>
        refine faultless_sweepGroups hslot _ ht (hnamed lo (Nat.le_refl _) (by omega) g ?_)
        rw [hword lo (Nat.le_refl _) (by omega), hg]
      · split
        · next e he => exact faultless_store (admits_buckets (by omega) (hentry he))
        · exact faultless_pure t
    have hgroups := groups_sweepStretch onEntry onSlot t q
    rw [List.foldlM_cons]
    refine hfirst.bind (ih hrest (hgroups ▸ ht) fun i h1 h2 g hg => ?_)
    rw [hgroups]
    exact hnamed i (by omega) h2 g hg

/-- A sweep of buckets stays inside both levels, if the groups it meets are groups of the table. -/
theorem faultless_sweepBuckets {onEntry : Entry → Option Entry} {onSlot : Slot → Option Slot}
    (hentry : Entry.Storable onEntry) (hslot : Slot.Storable onSlot) {n : Nat} {away : List Nat}
    (ha : t.Account n away) {lo hi : Nat} (hle : lo ≤ hi) (hhi : hi ≤ bucketCount) :
    (t.sweepBuckets lo hi onEntry onSlot).Faultless := by
  have htiles := Words.tiles_range t.buckets hle hhi
  refine (faultless_require (decide_eq_true hhi) .slotRange).bind ?_
  exact faultless_sweepStretches hentry hslot _ _ htiles hhi ha.groups_le
    fun i _ h2 g hg => (ha.named (by omega) hg).1

end Arrays

end Dir248
