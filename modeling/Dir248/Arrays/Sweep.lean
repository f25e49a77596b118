import Dir248.Arrays.Basic
import Dir248.Words.Pieces

/-!
# What a sweep does

A sweep goes through a range stretch by stretch, and what it does to one slot depends on
that slot alone.

* **`slotAt_sweepSlots`** — each slot of the range becomes what the change makes of it.
* **`entryAt_sweepBuckets`** — the same for the first level, where entries that name a
  group stay.
-/

namespace Dir248

namespace Arrays

/-! ### The second level -/

/-- What one stretch of slots becomes. -/
def slotStep (change : Slot → Option Slot) (t : Arrays) (p : Piece) : Arrays :=
  match change (.decode p.word) with
  | some s => t.apply (.slots p.start p.length s)
  | none => t

theorem value_sweepSlots (t : Arrays) (lo hi : Nat) (change : Slot → Option Slot) :
    (t.sweepSlots lo hi change).value = (t.slots.pieces 0 lo hi).foldl (slotStep change) t := by
  simp only [sweepSlots, Traced.value_bind, Traced.value_foldlM]
  congr 1
  funext t p
  simp only [slotStep]
  cases change (.decode p.word) <;> rfl

/-- A stretch changes its own slots only. -/
theorem slotAt_slotStep (change : Slot → Option Slot) (t : Arrays) (p : Piece) (i : Nat)
    (hi : i < 2 ^ 32)
    (hp : p.start ≤ i ∧ i < p.start + p.length → t.slots.get i = p.word) :
    (slotStep change t p).slotAt i =
      if p.start ≤ i ∧ i < p.start + p.length then
        ((change (t.slotAt i)).map Slot.cut).getD (t.slotAt i)
      else t.slotAt i := by
  by_cases hin : p.start ≤ i ∧ i < p.start + p.length
  · have hw : t.slotAt i = .decode p.word := by rw [slotAt, hp hin]
    rw [if_pos hin, slotStep, hw]
    split
    · next s hs => rw [slotAt_store _ _ _ _ _ hi, if_pos hin, hs]; rfl
    · next hs => rw [hs, hw]; rfl
  · rw [if_neg hin, slotStep]
    split
    · rw [slotAt_store _ _ _ _ _ hi, if_neg hin]
    · rfl

theorem get_slotStep (change : Slot → Option Slot) (t : Arrays) (p : Piece) (i : Nat)
    (hi : i < 2 ^ 32) (hout : ¬(p.start ≤ i ∧ i < p.start + p.length)) :
    (slotStep change t p).slots.get i = t.slots.get i := by
  simp only [slotStep]
  split
  · simp only [apply, Words.get_fill _ _ _ _ _ hi, if_neg hout]
  · rfl

theorem slotAt_foldl_slotStep (change : Slot → Option Slot) (words : Nat → Word)
    (ps : List Piece) (lo hi : Nat) (hhi : hi ≤ 2 ^ 32) (hps : Words.Tiles words lo hi ps)
    (t : Arrays) (ht : ∀ i, lo ≤ i → i < hi → t.slots.get i = words i) (i : Nat)
    (hi' : i < 2 ^ 32) :
    (ps.foldl (slotStep change) t).slotAt i =
      if lo ≤ i ∧ i < hi then ((change (t.slotAt i)).map Slot.cut).getD (t.slotAt i)
      else t.slotAt i := by
  induction ps generalizing lo t with
  | nil =>
    cases hps
    rw [if_neg (by omega)]
    rfl
  | cons p rest ih =>
    obtain ⟨hstart, hpos, hword, hrest⟩ := hps
    have hle := hrest.le
    have hstep := slotAt_slotStep change t p i hi' fun h => by
      rw [ht i (by omega) (by omega), hword i (by omega) (by omega)]
    rw [hstart] at hstep
    rw [List.foldl_cons, ih _ hrest _ fun j h1 h2 => by
      rw [get_slotStep _ _ _ _ (by omega) (by omega), ht j (by omega) h2]]
    by_cases h1 : lo ≤ i ∧ i < lo + p.length
    · rw [if_neg (by omega), hstep, if_pos h1, if_pos (by omega)]
    · rw [hstep, if_neg h1]
      by_cases h2 : lo ≤ i ∧ i < hi
      · rw [if_pos (by omega), if_pos h2]
      · rw [if_neg (by omega), if_neg h2]

/-- Each slot of the range becomes what the change makes of it. -/
theorem slotAt_sweepSlots (t : Arrays) (lo hi : Nat) (change : Slot → Option Slot)
    (hlo : lo ≤ hi) (hhi : hi ≤ 2 ^ 32) (i : Nat) (hi' : i < 2 ^ 32) :
    (t.sweepSlots lo hi change).value.slotAt i =
      if lo ≤ i ∧ i < hi then ((change (t.slotAt i)).map Slot.cut).getD (t.slotAt i)
      else t.slotAt i := by
  rw [value_sweepSlots]
  exact slotAt_foldl_slotStep change _ _ lo hi hhi (Words.tiles_range t.slots hlo hhi) t
    (fun _ _ _ => rfl) i hi'

@[simp] theorem buckets_slotStep (change : Slot → Option Slot) (t : Arrays) (p : Piece) :
    (slotStep change t p).buckets = t.buckets := by
  unfold slotStep
  split <;> rfl

@[simp] theorem buckets_sweepSlots (t : Arrays) (lo hi : Nat) (change : Slot → Option Slot) :
    (t.sweepSlots lo hi change).value.buckets = t.buckets := by
  rw [value_sweepSlots]
  generalize t.slots.pieces 0 lo hi = ps
  induction ps generalizing t with
  | nil => rfl
  | cons p rest ih => rw [List.foldl_cons, ih, buckets_slotStep]

@[simp] theorem groups_sweepSlots (t : Arrays) (lo hi : Nat) (change : Slot → Option Slot) :
    (t.sweepSlots lo hi change).value.groups = t.groups := by
  rw [value_sweepSlots]
  generalize t.slots.pieces 0 lo hi = ps
  induction ps generalizing t with
  | nil => rfl
  | cons p rest ih =>
    rw [List.foldl_cons, ih]
    unfold slotStep
    split
    · exact groups_apply ..
    · rfl

/-! ### The first level -/

theorem buckets_foldlM_sweepGroup {α : Type} (g : Nat) (change : Slot → Option Slot)
    (xs : List α) (t : Arrays) :
    (xs.foldlM (fun t _ => sweepGroup t g change) t).value.buckets = t.buckets := by
  rw [Traced.value_foldlM]
  induction xs generalizing t with
  | nil => rfl
  | cons x xs ih => rw [List.foldl_cons, ih]; exact buckets_sweepSlots ..

/-- What a stretch of first-level slots becomes. -/
theorem get_sweepStretch (onEntry : Entry → Option Entry) (onSlot : Slot → Option Slot)
    (hgroup : ∀ g, onEntry (.group g) = none) (t : Arrays) (p : Piece) (i : Nat)
    (hi : i < bucketCount) :
    (sweepStretch onEntry onSlot t p).value.buckets.get i =
      if p.start ≤ i ∧ i < p.start + p.length then
        match onEntry (.decode p.word) with
        | some e => e.encode
        | none => t.buckets.get i
      else t.buckets.get i := by
  unfold sweepStretch
  split
  · next g hg =>
    rw [buckets_foldlM_sweepGroup, hg, hgroup]
    simp
  · cases onEntry (.decode p.word) with
    | some e => simp only [store_value, apply, Words.get_fill _ _ _ _ _ hi]
    | none => simp

theorem entryAt_foldl_sweepStretch (onEntry : Entry → Option Entry)
    (onSlot : Slot → Option Slot) (hgroup : ∀ g, onEntry (.group g) = none) (words : Nat → Word)
    (ps : List Piece) (lo hi : Nat) (hhi : hi ≤ bucketCount) (hps : Words.Tiles words lo hi ps)
    (t : Arrays) (ht : ∀ i, lo ≤ i → i < hi → t.buckets.get i = words i) (i : Nat)
    (hi' : i < bucketCount) :
    (ps.foldl (fun t p => (sweepStretch onEntry onSlot t p).value) t).entryAt i =
      if lo ≤ i ∧ i < hi then ((onEntry (t.entryAt i)).map Entry.cut).getD (t.entryAt i)
      else t.entryAt i := by
  induction ps generalizing lo t with
  | nil =>
    cases hps
    rw [if_neg (by omega)]
    rfl
  | cons p rest ih =>
    obtain ⟨hstart, hpos, hword, hrest⟩ := hps
    have hle := hrest.le
    have hget (j : Nat) (hj : j < bucketCount) :=
      get_sweepStretch onEntry onSlot hgroup t p j hj
    rw [hstart] at hget
    rw [List.foldl_cons, ih _ hrest _ fun j h1 h2 => by
      rw [hget j (by omega), if_neg (by omega), ht j (by omega) h2]]
    by_cases h1 : lo ≤ i ∧ i < lo + p.length
    · have hw : t.buckets.get i = p.word := by
        rw [ht i h1.1 (by omega), hword i h1.1 h1.2]
      rw [if_neg (by omega), if_pos (by omega), entryAt, hget i hi', if_pos h1, entryAt, hw]
      cases onEntry (Entry.decode p.word) with
      | some e => exact Entry.decode_encode e
      | none => rfl
    · have hsame : (sweepStretch onEntry onSlot t p).value.entryAt i = t.entryAt i := by
        rw [entryAt, hget i hi', if_neg h1, entryAt]
      rw [hsame]
      by_cases h2 : lo ≤ i ∧ i < hi
      · rw [if_pos (by omega), if_pos h2]
      · rw [if_neg (by omega), if_neg h2]

/-- Each first-level slot of the range becomes what the change makes of it; those that name
a group stay. -/
theorem entryAt_sweepBuckets (t : Arrays) (lo hi : Nat) (onEntry : Entry → Option Entry)
    (onSlot : Slot → Option Slot) (hgroup : ∀ g, onEntry (.group g) = none) (hlo : lo ≤ hi)
    (hhi : hi ≤ bucketCount) (i : Nat) (hi' : i < bucketCount) :
    (t.sweepBuckets lo hi onEntry onSlot).value.entryAt i =
      if lo ≤ i ∧ i < hi then ((onEntry (t.entryAt i)).map Entry.cut).getD (t.entryAt i)
      else t.entryAt i := by
  simp only [sweepBuckets, Traced.value_bind, Traced.value_foldlM]
  exact entryAt_foldl_sweepStretch onEntry onSlot hgroup _ _ lo hi hhi
    (Words.tiles_range t.buckets hlo hhi) t (fun _ _ _ => rfl) i hi'

end Arrays

end Dir248
