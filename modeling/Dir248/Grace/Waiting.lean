import Dir248.Grace.Tracker

/-!
# What a wait achieves

A writer waits for readers, so every slot that can hold it up has to belong to one.

* **`Tracker.Attended`** — every taken slot belongs to a reader; **`attended_new`** and
  **`attended_advance`** say that this is always so.
* **`check_synchronize`** — a wait ends only when its own grace period is over.
-/

namespace Dir248

namespace Tracker

/-! ### Slots and their readers -/

theorem slotOf?_updateSlot (t : Tracker) (reader other : Nat) (f : ReaderSlot → ReaderSlot) :
    (t.updateSlot reader f).slotOf? other = t.slotOf? other := by
  unfold updateSlot
  split <;> rfl

theorem getElem?_updateSlot (t : Tracker) (reader i : Nat) (f : ReaderSlot → ReaderSlot) :
    (t.updateSlot reader f).slots[i]? =
      if t.slotOf? reader = some i then t.slots[i]?.map f else t.slots[i]? := by
  unfold updateSlot
  split
  · next j hj =>
    rw [hj]
    simp only [List.getElem?_modify, Option.some.injEq]
    split <;> simp_all
  · next hn => simp [hn]

/-- Every taken slot belongs to a reader. -/
def Attended (t : Tracker) : Prop :=
  ∀ i s, t.slots[i]? = some s → s.taken = true → ∃ r, t.slotOf? r = some i

theorem attended_new (maxReaders : Nat) : (new maxReaders).Attended := by
  intro i s hs ht
  simp only [new, List.getElem?_replicate] at hs
  split at hs
  · cases hs
    cases ht
  · cases hs

theorem attended_updateSlot (t : Tracker) (reader : Nat) (f : ReaderSlot → ReaderSlot)
    (hf : ∀ s, (f s).taken = true → s.taken = true) (h : t.Attended) :
    (t.updateSlot reader f).Attended := by
  intro i s hs ht
  rw [getElem?_updateSlot] at hs
  simp only [slotOf?_updateSlot]
  split at hs
  · obtain ⟨s', hs', rfl⟩ := Option.map_eq_some_iff.mp hs
    exact h i s' hs' (hf s' ht)
  · exact h i s hs ht

theorem attended_advance (t : Tracker) (step : ReaderStep) (h : t.Attended) :
    (t.advance step).Attended := by
  cases step with
  | online r => exact attended_updateSlot t r _ (fun _ hs => hs) h
  | offline r => exact attended_updateSlot t r _ (fun _ hs => hs) h
  | quiescent r => exact attended_updateSlot t r _ (fun _ hs => hs) h
  | register =>
    simp only [advance]
    split
    · next j hj =>
      intro i s hs ht
      by_cases hij : i = j
      · exact ⟨t.readers.length, by simp [slotOf?, hij]⟩
      · rw [List.getElem?_set_ne (Ne.symm hij)] at hs
        obtain ⟨r, hr⟩ := h i s hs ht
        refine ⟨r, ?_⟩
        simp only [slotOf?] at hr ⊢
        have hlt : r < t.readers.length := by
          rcases Nat.lt_or_ge r t.readers.length with hlt | hge
          · exact hlt
          · rw [List.getElem?_eq_none hge] at hr
            cases hr
        rw [List.getElem?_append_left hlt]
        exact hr
    · exact h
  | leave r =>
    intro i s hs ht
    simp only [advance] at hs ⊢
    rw [getElem?_updateSlot] at hs
    split at hs
    · obtain ⟨s', _, rfl⟩ := Option.map_eq_some_iff.mp hs
      cases ht
    · next hne =>
      obtain ⟨r', hr'⟩ := h i s hs ht
      refine ⟨r', ?_⟩
      have hrr : r' ≠ r := by
        rintro rfl
        exact hne hr'
      simp only [slotOf?] at hr' ⊢
      rw [List.getElem?_set_ne (Ne.symm hrr)]
      exact hr'

theorem attended_foldl_advance (t : Tracker) (steps : List ReaderStep) (h : t.Attended) :
    (steps.foldl advance t).Attended := by
  induction steps generalizing t with
  | nil => exact h
  | cons step steps ih => exact ih _ (attended_advance t step h)

/-! ### The end of a wait -/

/-- Reports bring every slot they reach up to date and leave the others as they are. -/
theorem past_foldl_quiescent (t : Tracker) (readers : List Nat) (i token : Nat) (s : ReaderSlot)
    (ht : token ≤ t.token)
    (hs : ((readers.map ReaderStep.quiescent).foldl advance t).slots[i]? = some s)
    (hr : (∃ r ∈ readers, t.slotOf? r = some i) ∨
      ∀ s, t.slots[i]? = some s → ReaderSlot.past s token = true) :
    ReaderSlot.past s token = true := by
  induction readers generalizing t with
  | nil =>
    rcases hr with ⟨r, hmem, _⟩ | hp
    · cases hmem
    · exact hp s hs
  | cons r readers ih =>
    have htok : token ≤ (t.advance (.quiescent r)).token := by rw [token_advance]; exact ht
    refine ih _ htok hs ?_
    have hget := getElem?_updateSlot t r i fun s => { s with seen := t.token }
    have hnow : t.slotOf? r = some i →
        ∀ s, (t.advance (.quiescent r)).slots[i]? = some s → ReaderSlot.past s token = true := by
      intro hri s hs
      simp only [advance] at hs
      rw [hget, if_pos hri] at hs
      obtain ⟨s', _, rfl⟩ := Option.map_eq_some_iff.mp hs
      simp [ReaderSlot.past, ht]
    rcases hr with ⟨r', hmem, hr'⟩ | hp
    · rcases List.mem_cons.mp hmem with rfl | hmem
      · exact Or.inr (hnow hr')
      · exact Or.inl ⟨r', hmem, by simp only [advance, slotOf?_updateSlot, hr']⟩
    · by_cases hri : t.slotOf? r = some i
      · exact Or.inr (hnow hri)
      · refine Or.inr fun s hs => hp s ?_
        simp only [advance] at hs
        rwa [hget, if_neg hri] at hs

theorem check_holdouts (t : Tracker) (token : Nat) (ht : token ≤ t.token) (h : t.Attended) :
    ((t.holdouts token).foldl advance t).check token = true := by
  simp only [check, List.all_eq_true]
  intro s hmem
  obtain ⟨i, hi⟩ := List.getElem?_of_mem hmem
  rw [holdouts] at hi
  refine past_foldl_quiescent t _ i token s ht hi ?_
  by_cases hp : ∀ s, t.slots[i]? = some s → ReaderSlot.past s token = true
  · exact Or.inr hp
  · simp only [Classical.not_forall] at hp
    obtain ⟨s', hs', hpast⟩ := hp
    have htaken : s'.taken = true := by
      cases hc : s'.taken
      · exact absurd (by simp [ReaderSlot.past, hc]) hpast
      · rfl
    obtain ⟨r, hr⟩ := h i s' hs' htaken
    refine Or.inl ⟨r, ?_, hr⟩
    have hlt : r < t.readers.length := by
      rcases Nat.lt_or_ge r t.readers.length with hlt | hge
      · exact hlt
      · rw [slotOf?, List.getElem?_eq_none hge] at hr
        cases hr
    refine List.mem_filter.mpr ⟨List.mem_range.mpr hlt, ?_⟩
    simp [isLate, hr, List.getD_eq_getElem?_getD, hs', hpast]

/-- A wait ends only when its own grace period is over. -/
theorem check_synchronize (t : Tracker) (meanwhile : Meanwhile) (h : t.Attended) :
    (t.synchronize meanwhile).value.check t.start.token = true := by
  have hstart : t.start.Attended := h
  simp only [synchronize, waitSteps, List.foldl_append]
  exact check_holdouts _ _ (Nat.le_of_eq (token_foldl_advance ..).symm)
    (attended_foldl_advance _ _ hstart)

end Tracker

end Dir248
