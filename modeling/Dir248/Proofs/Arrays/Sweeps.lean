import Dir248.Arrays.Sweep
import Dir248.Projection
import Dir248.Proofs.RuleMap
import Mathlib.Data.List.Basic

/-!
# What a sweep of buckets does inside the groups

A sweep of first-level slots goes into every group that one of them names. Several slots of
a stretch may name the same group, which is then swept again; the changes that rules make
have no effect the second time, so a group counts once.

* **`InGroup`** — the second-level slots of a group.
* **`slotAt_sweepBuckets`** — the slots of the groups named in the range are changed once.
* **`Slot.idem_claim`**, **`Slot.idem_cede`** — a second time changes nothing.
-/

namespace Dir248

/-! ### The slots of a group -/

/-- The second-level slot `j` belongs to the group. -/
def InGroup (group j : Nat) : Prop := groupStart group ≤ j ∧ j < groupStart group + groupSize

instance (group j : Nat) : Decidable (InGroup group j) := inferInstanceAs (Decidable (_ ∧ _))

theorem inGroup_add (group : Nat) {o : Nat} (h : o < groupSize) :
    InGroup group (groupStart group + o) := ⟨Nat.le_add_right .., Nat.add_lt_add_left h _⟩

/-- Groups share no slot. -/
theorem InGroup.unique {g h j : Nat} (hg : InGroup g j) (hh : InGroup h j) : g = h := by
  simp only [InGroup, groupStart, groupSize] at hg hh
  omega

theorem InGroup.lt {g j : Nat} (h : InGroup g j) (hg : g < maxGroups) : j < 2 ^ 32 := by
  simp only [InGroup, groupStart, groupSize, maxGroups] at h hg
  omega

theorem InGroup.exists_offset {g j : Nat} (h : InGroup g j) :
    ∃ o, o < groupSize ∧ j = groupStart g + o := by
  simp only [InGroup] at h
  exact ⟨j - groupStart g, by omega, by omega⟩

theorem groupStart_add_le {g : Nat} (hg : g < maxGroups) : groupStart g + groupSize ≤ 2 ^ 32 := by
  simp only [groupStart, groupSize, maxGroups] at hg ⊢
  omega

/-- A group number that was read from a word fits the value field. -/
theorem Entry.group_lt {w : Word} {g : Nat} (h : Entry.decode w = .group g) : g < maxGroups := by
  unfold Entry.decode at h
  split at h
  · split at h
    · cases h
      exact Nat.mod_lt _ (by decide)
    · cases h
  · cases h

/-! ### Slots as words keep them -/

/-- The fields of a route fit the fields of a word. -/
structure Route.Fits (r : Route) : Prop where
  depth : r.depth < 64
  nextHop : r.nextHop < 2 ^ 24

theorem Entry.cut_leaf {r : Route} (h : r.Fits) : (Entry.leaf r).cut = .leaf r := by
  rw [cut, Nat.mod_eq_of_lt h.depth, Nat.mod_eq_of_lt h.nextHop]

namespace Slot

theorem cut_leaf {r : Route} (h : r.Fits) : (leaf r).cut = leaf r := by
  rw [cut, leaf, Nat.mod_eq_of_lt h.depth, Nat.mod_eq_of_lt h.nextHop]

/-- A slot that was read from a word loses nothing when it is stored again. -/
theorem cut_decode (w : Word) : (decode w).cut = decode w := by
  rw [← decode_encode, encode_decode]

/-- What becomes of a slot when a change of it is stored. -/
def step (change : Slot → Option Slot) (s : Slot) : Slot := ((change s).map cut).getD s

theorem step_of_none {change : Slot → Option Slot} {s : Slot} (h : change s = none) :
    step change s = s := by
  rw [step, h]
  rfl

theorem step_of_some {change : Slot → Option Slot} {s s' : Slot} (h : change s = some s') :
    step change s = s'.cut := by
  rw [step, h]
  rfl

/-- A second time changes nothing. -/
def Idem (change : Slot → Option Slot) : Prop :=
  ∀ s : Slot, s.cut = s → step change (step change s) = step change s

theorem claim_of_yields {r : Route} {s : Slot} (h : s.yieldsTo r.depth = true) :
    s.claim r = some (leaf r) := if_pos h

theorem idem_claim {r : Route} (hr : r.Fits) : Idem (claim r) := by
  intro s _
  by_cases h : s.yieldsTo r.depth = true
  · have hself : (leaf r).yieldsTo r.depth = true := by simp [yieldsTo, leaf]
    rw [step_of_some (claim_of_yields h), cut_leaf hr, step_of_some (claim_of_yields hself),
      cut_leaf hr]
  · have hnone : s.claim r = none := if_neg h
    rw [step_of_none hnone, step_of_none hnone]

theorem idem_cede {depth : Nat} {cover : Option Route}
    (hc : ∀ c, cover = some c → c.Fits ∧ c.depth ≤ depth) : Idem (cede depth cover) := by
  intro s hs
  by_cases h : depth < s.route.depth
  · have hnone : s.cede depth cover = none := if_pos h
    rw [step_of_none hnone, step_of_none hnone]
  · cases hcover : cover with
    | some c =>
      obtain ⟨hfits, hle⟩ := hc c hcover
      have hceded : ∀ s : Slot, ¬ depth < s.route.depth → s.cede depth (some c) = some (leaf c) :=
        fun s hs => if_neg hs
      rw [step_of_some (hceded s h), cut_leaf hfits,
        step_of_some (hceded (leaf c) (Nat.not_lt.mpr hle)), cut_leaf hfits]
    | none =>
      have hceded : ∀ s : Slot, ¬ depth < s.route.depth →
          s.cede depth none = some { s with valid := false } := fun s hs => if_neg hs
      have hcut : ({ s with valid := false } : Slot).cut = { s with valid := false } := by
        have hroute := congrArg route hs
        simp only [cut] at hroute ⊢
        rw [hroute]
      have hself : step (cede depth none) { s with valid := false } = { s with valid := false } :=
        (step_of_some (hceded { s with valid := false } h)).trans hcut
      rw [step_of_some (hceded s h), hcut]
      exact hself

/-- The group bit stays with a slot that a rule comes to. -/
theorem occupied_step_claim (r : Route) {s : Slot} (h : s.occupied = true) :
    (step (claim r) s).occupied = true := by
  by_cases hy : s.yieldsTo r.depth = true
  · rw [step_of_some (claim_of_yields hy)]
    rfl
  · rw [step_of_none (if_neg hy)]
    exact h

/-- The group bit stays with a slot that a rule leaves. -/
theorem occupied_step_cede (depth : Nat) (cover : Option Route) {s : Slot}
    (h : s.occupied = true) : (step (cede depth cover) s).occupied = true := by
  by_cases hd : depth < s.route.depth
  · rw [step_of_none (if_pos hd)]
    exact h
  · cases cover with
    | some c =>
      have hstep : s.cede depth (some c) = some (leaf c) := if_neg hd
      rw [step_of_some hstep]
      rfl
    | none =>
      have hstep : s.cede depth none = some { s with valid := false } := if_neg hd
      rw [step_of_some hstep]
      exact h

theorem answer_step_claim {r : Route} (hr : r.Fits) (s : Slot) :
    (step (claim r) s).answer = r.over s.answer := by
  refine Eq.trans ?_ (answer_claim r s)
  by_cases hy : s.yieldsTo r.depth = true
  · rw [step_of_some (claim_of_yields hy), claim_of_yields hy, cut_leaf hr]
    rfl
  · have hnone : s.claim r = none := if_neg hy
    rw [step_of_none hnone, hnone]
    rfl

theorem answer_step_cede {depth : Nat} {cover : Option Route} (hc : ∀ c, cover = some c → c.Fits)
    (s : Slot) :
    (step (cede depth cover) s).answer = if depth < s.route.depth then s.answer else cover := by
  rw [← answer_cede depth cover s]
  by_cases hd : depth < s.route.depth
  · have hnone : s.cede depth cover = none := if_pos hd
    rw [step_of_none hnone, hnone]
    rfl
  · cases hcover : cover with
    | some c =>
      have hsome : s.cede depth (some c) = some (leaf c) := if_neg hd
      rw [step_of_some hsome, hsome, cut_leaf (hc c hcover)]
      rfl
    | none =>
      have hsome : s.cede depth none = some { s with valid := false } := if_neg hd
      rw [step_of_some hsome, hsome]
      rfl

end Slot

namespace Arrays

/-! ### Groups swept once and more often -/

theorem cut_slotAt (t : Arrays) (j : Nat) : (t.slotAt j).cut = t.slotAt j := Slot.cut_decode _

theorem slotAt_sweepGroup (t : Arrays) {g : Nat} (hg : g < maxGroups)
    (change : Slot → Option Slot) {j : Nat} (hj : j < 2 ^ 32) :
    (t.sweepGroup g change).value.slotAt j =
      if InGroup g j then Slot.step change (t.slotAt j) else t.slotAt j :=
  slotAt_sweepSlots t _ _ change (Nat.le_add_right ..) (groupStart_add_le hg) j hj

theorem slotAt_foldl_sweepGroup {α : Type} {g : Nat} (hg : g < maxGroups)
    {change : Slot → Option Slot} (hidem : Slot.Idem change) {j : Nat} (hj : j < 2 ^ 32)
    (xs : List α) (hxs : xs ≠ []) (t : Arrays) :
    (xs.foldl (fun t _ => (sweepGroup t g change).value) t).slotAt j =
      if InGroup g j then Slot.step change (t.slotAt j) else t.slotAt j := by
  induction xs generalizing t with
  | nil => exact absurd rfl hxs
  | cons x xs ih =>
    have hfirst := slotAt_sweepGroup t hg change hj
    rw [List.foldl_cons]
    rcases eq_or_ne xs [] with rfl | hne
    · exact hfirst
    · rw [ih hne, hfirst]
      split
      · rw [hidem _ (cut_slotAt t j)]
      · rfl

/-! ### Stretches of buckets -/

section Sweep

variable {onEntry : Entry → Option Entry} {onSlot : Slot → Option Slot} (hidem : Slot.Idem onSlot)
  {j : Nat} (hj : j < 2 ^ 32)

include hidem hj

open Classical in
theorem slotAt_sweepStretch (t : Arrays) (p : Piece) (hp : 0 < p.length) :
    (sweepStretch onEntry onSlot t p).value.slotAt j =
      if ∃ g, Entry.decode p.word = .group g ∧ InGroup g j then Slot.step onSlot (t.slotAt j)
      else t.slotAt j := by
  unfold sweepStretch
  split
  · next g hg =>
    have hne : List.range p.length ≠ [] := by
      rw [Ne, List.range_eq_nil]
      omega
    rw [Traced.value_foldlM, slotAt_foldl_sweepGroup (Entry.group_lt hg) hidem hj _ hne]
    refine if_congr ?_ rfl rfl
    simp [hg]
  · next e hno =>
    rw [if_neg (by
      intro h
      obtain ⟨g, hg, -⟩ := h
      exact hno g hg)]
    cases onEntry (Entry.decode p.word) <;> rfl

open Classical in
theorem slotAt_foldl_sweepStretch (words : Nat → Word) (ps : List Piece) (lo hi : Nat)
    (hps : Words.Tiles words lo hi ps) (t : Arrays) :
    (ps.foldl (fun t p => (sweepStretch onEntry onSlot t p).value) t).slotAt j =
      if ∃ i g, lo ≤ i ∧ i < hi ∧ Entry.decode (words i) = .group g ∧ InGroup g j then
        Slot.step onSlot (t.slotAt j)
      else t.slotAt j := by
  induction ps generalizing lo t with
  | nil =>
    cases hps
    rw [if_neg (by
      intro h
      obtain ⟨i, g, h1, h2, -⟩ := h
      omega)]
    rfl
  | cons p rest ih =>
    obtain ⟨-, hpos, hword, hrest⟩ := hps
    have hle := hrest.le
    rw [List.foldl_cons, ih _ hrest, slotAt_sweepStretch hidem hj t p hpos]
    by_cases hin : ∃ g, Entry.decode p.word = .group g ∧ InGroup g j
    · have hall : ∃ i g, lo ≤ i ∧ i < hi ∧ Entry.decode (words i) = .group g ∧ InGroup g j := by
        obtain ⟨g, hg, hgj⟩ := hin
        refine ⟨lo, g, Nat.le_refl _, by omega, ?_, hgj⟩
        rw [hword lo (Nat.le_refl _) (by omega)]
        exact hg
      rw [if_pos hin, if_pos hall]
      -- later stretches may name the group again, with no effect
      split
      · exact hidem _ (cut_slotAt t j)
      · rfl
    · rw [if_neg hin]
      refine if_congr ⟨?_, ?_⟩ rfl rfl
      · intro h
        obtain ⟨i, g, h1, h2, hg, hgj⟩ := h
        exact ⟨i, g, by omega, h2, hg, hgj⟩
      · intro h
        obtain ⟨i, g, h1, h2, hg, hgj⟩ := h
        refine ⟨i, g, ?_, h2, hg, hgj⟩
        by_contra hlt
        rw [hword i h1 (by omega)] at hg
        exact hin ⟨g, hg, hgj⟩

open Classical in
/-- The slots of the groups named in the range are changed, and no others. -/
theorem slotAt_sweepBuckets (t : Arrays) (lo hi : Nat) (hlo : lo ≤ hi) (hhi : hi ≤ bucketCount) :
    (t.sweepBuckets lo hi onEntry onSlot).value.slotAt j =
      if ∃ i g, lo ≤ i ∧ i < hi ∧ t.entryAt i = .group g ∧ InGroup g j then
        Slot.step onSlot (t.slotAt j)
      else t.slotAt j := by
  simp only [sweepBuckets, Traced.value_bind, Traced.value_foldlM]
  exact slotAt_foldl_sweepStretch hidem hj _ _ lo hi (Words.tiles_range t.buckets hlo hhi) t

end Sweep

theorem groups_sweepStretch (onEntry : Entry → Option Entry) (onSlot : Slot → Option Slot)
    (t : Arrays) (p : Piece) : (sweepStretch onEntry onSlot t p).value.groups = t.groups := by
  unfold sweepStretch
  split
  · next g _ =>
    rw [Traced.value_foldlM]
    generalize List.range p.length = xs
    induction xs generalizing t with
    | nil => rfl
    | cons x xs ih =>
      rw [List.foldl_cons, ih]
      exact groups_sweepSlots ..
  · split
    · exact groups_apply ..
    · rfl

@[simp] theorem groups_sweepBuckets (t : Arrays) (lo hi : Nat) (onEntry : Entry → Option Entry)
    (onSlot : Slot → Option Slot) :
    (t.sweepBuckets lo hi onEntry onSlot).value.groups = t.groups := by
  simp only [sweepBuckets, Traced.value_bind, Traced.value_foldlM]
  generalize t.buckets.pieces 0 lo hi = ps
  induction ps generalizing t with
  | nil => rfl
  | cons p rest ih => rw [List.foldl_cons, ih, groups_sweepStretch]

end Arrays

end Dir248
