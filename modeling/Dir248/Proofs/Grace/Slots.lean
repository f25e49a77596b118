import Dir248.Proofs.Grace.Periods
import Mathlib.Data.Finset.Card
import Mathlib.Data.Finset.Range
import Mathlib.Order.Bounds.Basic

/-!
# Who holds which slot

A slot only tells whether it is taken and which token was last seen in it; it has no mark of the
reader that holds it, and a reader that comes may get the slot of one that left. Which reader
holds which slot is told by the readers. Both sides agree at all times: the taken slots are
those of the readers that are there, each has one reader, and so a reader is turned away only
when as many are there as there are slots.

* **`Tracker.Taken`**, **`Tracker.Free`** — what a slot tells; **`Tracker.live`** — the readers
  that are there.
* **`freeSlot?_eq_some_iff`** — the slot that is given out is the lowest free one.
* **`Sound.taken_iff`**, **`Sound.card_live`** — the taken slots are those of the readers that are
  there, and as many.
* **`Sound.exists_free_iff`** — there is a free slot while fewer readers are there than slots.
* **`slots_exclusive`** — all of this after every list of calls.
-/

namespace Dir248

namespace Tracker

variable {t : Tracker}

/-! ### Taken and free slots -/

/-- The slot is there and tells that a reader holds it. -/
def Taken (t : Tracker) (i : Nat) : Prop := t.slots[i]?.map ReaderSlot.taken = some true

/-- The slot is there and tells that no reader holds it. -/
def Free (t : Tracker) (i : Nat) : Prop := t.slots[i]?.map ReaderSlot.taken = some false

instance (t : Tracker) : DecidablePred t.Taken := fun _ => inferInstanceAs (Decidable (_ = _))

theorem taken_iff_not_free {i : Nat} (hi : i < t.maxReaders) : t.Taken i ↔ ¬ t.Free i := by
  rw [Taken, Free, List.getElem?_eq_getElem hi]
  cases htaken : t.slots[i].taken <;> simp [htaken]

theorem Free.lt {i : Nat} (h : t.Free i) : i < t.maxReaders := by
  obtain ⟨s, hs, -⟩ := Option.map_eq_some_iff.mp h
  exact (List.getElem?_eq_some_iff.mp hs).1

/-- The slot that is given out next is the lowest free one. -/
theorem freeSlot?_eq_some_iff {i : Nat} : t.freeSlot? = some i ↔ IsLeast {j | t.Free j} i := by
  rw [freeSlot?, List.findIdx?_eq_some_iff_getElem]
  constructor
  · intro h
    obtain ⟨hi, hfree, hbelow⟩ := h
    refine ⟨?_, fun j hj => Nat.le_of_not_lt fun hlt => hbelow j hlt ?_⟩
    · show t.slots[i]?.map ReaderSlot.taken = some false
      rw [List.getElem?_eq_getElem hi]
      simpa using hfree
    · obtain ⟨s, hs, htaken⟩ := Option.map_eq_some_iff.mp hj
      rw [(List.getElem?_eq_some_iff.mp hs).2, htaken]
      rfl
  · intro h
    obtain ⟨hfree, hleast⟩ := h
    obtain ⟨s, hs, htaken⟩ := Option.map_eq_some_iff.mp hfree
    obtain ⟨hi, rfl⟩ := List.getElem?_eq_some_iff.mp hs
    refine ⟨hi, by rw [htaken]; rfl, fun j hlt hj => ?_⟩
    refine absurd (hleast (a := j) ?_) (Nat.not_le_of_lt hlt)
    show t.slots[j]?.map ReaderSlot.taken = some false
    rw [List.getElem?_eq_getElem (Nat.lt_trans hlt hi)]
    simpa using hj

theorem not_free_of_freeSlot? (h : t.freeSlot? = none) (i : Nat) : ¬ t.Free i := by
  intro hfree
  obtain ⟨s, hs, htaken⟩ := Option.map_eq_some_iff.mp hfree
  have hall := List.findIdx?_eq_none_iff.mp h s (List.mem_of_getElem? hs)
  rw [htaken] at hall
  cases hall

/-! ### Readers that are there -/

/-- The readers that hold a slot. -/
def live (t : Tracker) : Finset Nat :=
  (Finset.range t.readers.length).filter fun r => (t.slotOf? r).isSome

theorem mem_live {r : Nat} : r ∈ t.live ↔ ∃ i, t.slotOf? r = some i := by
  rw [live, Finset.mem_filter, Finset.mem_range, Option.isSome_iff_exists, and_iff_right_iff_imp]
  intro h
  obtain ⟨i, hr⟩ := h
  exact lt_of_slotOf? hr

/-- The taken slots are those of the readers that are there. -/
theorem Sound.taken_iff (h : t.Sound) {i : Nat} : t.Taken i ↔ ∃ r, t.slotOf? r = some i := by
  constructor
  · intro htaken
    obtain ⟨s, hs, ht⟩ := Option.map_eq_some_iff.mp htaken
    exact h.attended i s hs ht
  · intro hheld
    obtain ⟨r, hr⟩ := hheld
    obtain ⟨s, hs, ht⟩ := h.taken hr
    rw [Taken, hs, Option.map_some, ht]

/-- As many slots are taken as readers are there. -/
theorem Sound.card_live (h : t.Sound) :
    t.live.card = ((Finset.range t.maxReaders).filter t.Taken).card := by
  refine Finset.card_nbij (fun r => (t.slotOf? r).getD 0) (fun r hr => ?_)
    (fun r hr r' hr' heq => ?_) fun i hi => ?_
  · obtain ⟨i, hi⟩ := mem_live.mp hr
    obtain ⟨s, hs, ht⟩ := h.taken hi
    have hlt : i < t.maxReaders := (List.getElem?_eq_some_iff.mp hs).1
    simp only [hi, Option.getD_some]
    exact Finset.mem_filter.mpr ⟨Finset.mem_range.mpr hlt, h.taken_iff.mpr ⟨r, hi⟩⟩
  · obtain ⟨i, hi⟩ := mem_live.mp hr
    obtain ⟨i', hi'⟩ := mem_live.mp hr'
    simp only [hi, hi', Option.getD_some] at heq
    subst heq
    exact h.exclusive hi hi'
  · obtain ⟨-, htaken⟩ := Finset.mem_filter.mp hi
    obtain ⟨r, hr⟩ := h.taken_iff.mp htaken
    refine ⟨r, mem_live.mpr ⟨i, hr⟩, ?_⟩
    show (t.slotOf? r).getD 0 = i
    rw [hr, Option.getD_some]

/-- There is a free slot exactly while fewer readers are there than slots. -/
theorem Sound.exists_free_iff (h : t.Sound) : (∃ i, t.Free i) ↔ t.live.card < t.maxReaders := by
  rw [h.card_live]
  constructor
  · intro hfree
    obtain ⟨i, hi⟩ := hfree
    have hless : (Finset.range t.maxReaders).filter t.Taken ⊂ Finset.range t.maxReaders :=
      Finset.filter_ssubset.mpr ⟨i, Finset.mem_range.mpr hi.lt,
        fun htaken => (taken_iff_not_free hi.lt).mp htaken hi⟩
    exact Nat.lt_of_lt_of_eq (Finset.card_lt_card hless) (Finset.card_range _)
  · intro hless
    by_contra hnone
    have hall : (Finset.range t.maxReaders).filter t.Taken = Finset.range t.maxReaders :=
      Finset.filter_true_of_mem fun i hi =>
        (taken_iff_not_free (Finset.mem_range.mp hi)).mpr fun hfree => hnone ⟨i, hfree⟩
    rw [hall, Finset.card_range] at hless
    exact Nat.lt_irrefl _ hless

/-! ### A reader that comes in -/

theorem register_of_free {i : Nat} (h : t.freeSlot? = some i) :
    t.register.value = ⟨t.advance .register, .ok t.readers.length⟩ := by
  unfold register
  rw [h]
  rfl

theorem register_of_full (h : t.freeSlot? = none) :
    t.register.value = ⟨t, .error .outOfSpace⟩ := by
  unfold register
  rw [h]
  rfl

/-- What a registration does: the new reader gets the lowest free slot, offline, and nobody else
sees a change. -/
theorem register_eq_ok {r : Nat} (h : t.register.value.answer = .ok r) :
    r ∉ t.live ∧ t.register.value.state.live = insert r t.live ∧
      ∃ i, IsLeast {j | t.Free j} i ∧ t.register.value.state.slotOf? r = some i ∧
        t.register.value.state.slots[i]? = some ⟨true, 0⟩ ∧
        ∀ j, j ≠ i → t.register.value.state.slots[j]? = t.slots[j]? := by
  cases hfree : t.freeSlot? with
  | none =>
    rw [register_of_full hfree] at h
    cases h
  | some i =>
    rw [register_of_free hfree] at h ⊢
    obtain rfl := Except.ok.inj h
    refine ⟨fun hmem => ?_, ?_, i, freeSlot?_eq_some_iff.mp hfree, ?_, ?_, fun j hj => ?_⟩
    · obtain ⟨j, hj⟩ := mem_live.mp hmem
      exact Nat.lt_irrefl _ (lt_of_slotOf? hj)
    · ext r
      rw [Finset.mem_insert, mem_live, mem_live]
      simp only [slotOf?_register hfree]
      split
      · next heq => simp [heq]
      · next hne => simp [hne]
    · rw [slotOf?_register hfree, if_pos rfl]
    · rw [getElem?_register hfree, if_pos rfl]
    · rw [getElem?_register hfree, if_neg hj]

/-- A reader is let in exactly while fewer readers are there than slots. -/
theorem Sound.register_iff (h : t.Sound) :
    (∃ r, t.register.value.answer = .ok r) ↔ t.live.card < t.maxReaders := by
  rw [← h.exists_free_iff]
  cases hfree : t.freeSlot? with
  | none =>
    rw [register_of_full hfree]
    refine ⟨nofun, fun hex => ?_⟩
    obtain ⟨i, hi⟩ := hex
    exact absurd hi (not_free_of_freeSlot? hfree i)
  | some i =>
    rw [register_of_free hfree]
    exact ⟨fun _ => ⟨i, (freeSlot?_eq_some_iff.mp hfree).1⟩, fun _ => ⟨_, rfl⟩⟩

/-! ### All calls -/

theorem maxReaders_updateSlot (t : Tracker) (r : Nat) (f : ReaderSlot → ReaderSlot) :
    (t.updateSlot r f).maxReaders = t.maxReaders := by
  unfold updateSlot
  split
  · exact List.length_modify ..
  · rfl

/-- No step adds a slot or takes one away. -/
theorem maxReaders_advance (t : Tracker) (step : ReaderStep) :
    (t.advance step).maxReaders = t.maxReaders := by
  cases step with
  | register =>
    simp only [advance]
    split
    · exact List.length_set
    · rfl
  | online r => exact maxReaders_updateSlot t r _
  | offline r => exact maxReaders_updateSlot t r _
  | quiescent r => exact maxReaders_updateSlot t r _
  | leave r => exact maxReaders_updateSlot t r _

theorem maxReaders_foldl_advance (t : Tracker) (steps : List ReaderStep) :
    (steps.foldl advance t).maxReaders = t.maxReaders := by
  induction steps generalizing t with
  | nil => rfl
  | cons step steps ih => exact (ih (t.advance step)).trans (maxReaders_advance t step)

theorem maxReaders_foldl_serve (t : Tracker) (calls : List TrackerCall) :
    (calls.foldl serve t).maxReaders = t.maxReaders := by
  induction calls generalizing t with
  | nil => rfl
  | cons call calls ih =>
    refine (ih (t.serve call)).trans ?_
    cases call with
    | reader step => exact maxReaders_advance t step
    | start => rfl
    | synchronize meanwhile => exact maxReaders_foldl_advance t.start _

/-- A reader is there exactly if the record says so. -/
theorem Recorded.mem_live {log : List Tick} (h : Recorded t log) {r : Nat} :
    r ∈ t.live ↔ Registered r log := by
  rw [Tracker.mem_live, h.registered]
  constructor
  · intro hheld
    obtain ⟨i, hi⟩ := hheld
    obtain ⟨s, hs, -⟩ := h.sound.taken hi
    exact ⟨s.seen, seen?_eq_some.mpr ⟨i, s, hi, hs, rfl⟩⟩
  · intro hseen
    obtain ⟨c, hc⟩ := hseen
    obtain ⟨i, s, hi, -, -⟩ := seen?_eq_some.mp hc
    exact ⟨i, hi⟩

/-- After any calls on a tracker with any number of slots, no two readers hold one slot, and the
taken slots are those of the readers that were let in and have not left. One more reader is let in
exactly if fewer are there than slots; it gets the lowest free slot, offline, and otherwise
nothing changes. No step of a reader changes the slot of another reader, or which one that is. -/
theorem slots_exclusive (maxReaders : Nat) (calls : List TrackerCall) :
    let t := calls.foldl serve (new maxReaders)
    (∀ r, r ∈ t.live ↔ Registered r ((new maxReaders).record calls)) ∧
    t.maxReaders = maxReaders ∧
    (∀ r r' i, t.slotOf? r = some i → t.slotOf? r' = some i → r = r') ∧
    (∀ i, t.Taken i ↔ ∃ r ∈ t.live, t.slotOf? r = some i) ∧
    ((∃ r, t.register.value.answer = .ok r) ↔ t.live.card < maxReaders) ∧
    (∀ r, t.register.value.answer = .ok r →
      r ∉ t.live ∧ t.register.value.state.live = insert r t.live ∧
        ∃ i, IsLeast {j | t.Free j} i ∧ t.register.value.state.slotOf? r = some i ∧
          t.register.value.state.slots[i]? = some ⟨true, 0⟩ ∧
          ∀ j, j ≠ i → t.register.value.state.slots[j]? = t.slots[j]?) ∧
    (∀ e, t.register.value.answer = .error e →
      e = .outOfSpace ∧ t.register.value.state = t) ∧
    ∀ step r i, t.slotOf? r = some i → step.by? ≠ some r →
      (t.serve (.reader step)).slotOf? r = some i ∧
        (t.serve (.reader step)).slots[i]? = t.slots[i]? := by
  intro t
  have hrecorded := recorded_serve maxReaders calls
  have hsound := hrecorded.sound
  have hslots : t.maxReaders = maxReaders :=
    (maxReaders_foldl_serve (new maxReaders) calls).trans List.length_replicate
  refine ⟨fun r => hrecorded.mem_live, hslots, fun r r' i => hsound.exclusive, fun i => ?_, ?_,
    fun r => register_eq_ok, fun e he => ?_, fun step r i hr hstep => hsound.advance_keeps hr hstep⟩
  · rw [hsound.taken_iff]
    exact exists_congr fun r => (and_iff_right_of_imp fun hr => mem_live.mpr ⟨i, hr⟩).symm
  · rw [hsound.register_iff, hslots]
  · cases hfree : t.freeSlot? with
    | none =>
      rw [register_of_full hfree] at he ⊢
      exact ⟨(Except.error.inj he).symm, rfl⟩
    | some i =>
      rw [register_of_free hfree] at he
      cases he

/-- The first of two readers leaves while both are online, and a third one takes its slot. It
starts offline, and the second one stays online where it is. -/
theorem slots_exclusive_recycled :
    let calls : List TrackerCall := [.reader .register, .reader .register, .reader (.online 0),
      .reader (.online 1), .reader (.leave 0)]
    let t := calls.foldl serve (new 2)
    t.register.value.answer = .ok 2 ∧ t.register.value.state.slotOf? 2 = some 0 ∧
      t.register.value.state.slots[0]? = some ⟨true, 0⟩ ∧
      (t.serve (.reader .register)).slotOf? 1 = some 1 ∧
      (t.serve (.reader .register)).slots[1]? = some ⟨true, 1⟩ := by
  intro calls t
  obtain ⟨-, -, -, -, -, hcomes, -, hothers⟩ := slots_exclusive 2 calls
  have hanswer : t.register.value.answer = .ok 2 := rfl
  obtain ⟨-, -, i, hleast, hslot, hoffline, -⟩ := hcomes 2 hanswer
  have hlowest : t.Free 0 := rfl
  obtain rfl : i = 0 := Nat.le_zero.mp (hleast.2 hlowest)
  obtain ⟨hstays, hsame⟩ := hothers .register 1 1 rfl nofun
  exact ⟨hanswer, hslot, hoffline, hstays, hsame.trans rfl⟩

end Tracker

end Dir248
