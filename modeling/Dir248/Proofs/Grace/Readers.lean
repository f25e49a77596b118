import Dir248.Grace.Waiting
import Mathlib.Data.List.Basic

/-!
# Readers that hold a grace period back

A reader that is online and takes no step keeps its slot and the token it has seen,
whatever the other readers do, so no grace period opened later is over and no wait ends.

* **`Tracker.Sound`** — every slot has at most one reader, and no reader is ahead of the tokens.
* **`Tracker.Inside`** — a reader that is online and the token it has seen.
* **`Sound.advance_keeps`**, **`Inside.advance`** — steps of others leave it where it is.
* **`Inside.check_eq_false`**, **`Inside.steps_in_wait`** — what it holds back.
* **`Tracker.Alike`** — trackers that differ in their tokens only.
-/

namespace Dir248

/-- The reader that takes a step; a reader that comes in has no number before. -/
def ReaderStep.by? : ReaderStep → Option Nat
  | .register => none
  | .online r | .offline r | .quiescent r | .leave r => some r

/-- What can be told of a slot without its token: whether it is taken, and whether its reader is
offline. -/
def ReaderSlot.presence (s : ReaderSlot) : Bool × Bool := (s.taken, s.seen == 0)

namespace Tracker

variable {t t' : Tracker}

/-! ### Slots after a step -/

theorem lt_of_slotOf? {r i : Nat} (h : t.slotOf? r = some i) : r < t.readers.length := by
  rcases Nat.lt_or_ge r t.readers.length with hlt | hge
  · exact hlt
  · rw [slotOf?, List.getElem?_eq_none hge] at h
    cases h

/-- The slot that a reader would get is not taken. -/
theorem freeSlot?_eq_some {j : Nat} (h : t.freeSlot? = some j) :
    ∃ s, t.slots[j]? = some s ∧ s.taken = false := by
  obtain ⟨hlt, hfree, -⟩ := List.findIdx?_eq_some_iff_getElem.mp h
  exact ⟨t.slots[j], List.getElem?_eq_getElem hlt, by simpa using hfree⟩

theorem slotOf?_register {j : Nat} (hj : t.freeSlot? = some j) (r : Nat) :
    (t.advance .register).slotOf? r = if r = t.readers.length then some j else t.slotOf? r := by
  simp only [advance, hj, slotOf?]
  rcases Nat.lt_trichotomy r t.readers.length with hlt | rfl | hgt
  · rw [if_neg (Nat.ne_of_lt hlt), List.getElem?_append_left hlt]
  · simp
  · rw [if_neg (Nat.ne_of_gt hgt), List.getElem?_eq_none (Nat.le_of_lt hgt),
      List.getElem?_eq_none (by rw [List.length_append]; exact hgt)]

theorem getElem?_register {j : Nat} (hj : t.freeSlot? = some j) (i : Nat) :
    (t.advance .register).slots[i]? = if i = j then some ⟨true, 0⟩ else t.slots[i]? := by
  obtain ⟨s, hs, -⟩ := freeSlot?_eq_some hj
  have hlt := (List.getElem?_eq_some_iff.mp hs).1
  simp only [advance, hj, List.getElem?_set]
  rcases eq_or_ne i j with rfl | hne
  · simp [hlt]
  · rw [if_neg (Ne.symm hne), if_neg hne]

theorem slotOf?_leave (r₀ r : Nat) :
    (t.advance (.leave r₀)).slotOf? r = if r = r₀ then none else t.slotOf? r := by
  simp only [advance, slotOf?, List.getElem?_set]
  rcases eq_or_ne r r₀ with rfl | hne
  · rw [if_pos rfl, if_pos rfl]
    split <;> rfl
  · rw [if_neg (Ne.symm hne), if_neg hne]

/-! ### Slots and their readers -/

/-- Every taken slot has a reader and no two readers share one; readers hold taken slots, and
none has seen a token that is yet to come. -/
structure Sound (t : Tracker) : Prop where
  attended : t.Attended
  exclusive : ∀ {r r' i}, t.slotOf? r = some i → t.slotOf? r' = some i → r = r'
  taken : ∀ {r i}, t.slotOf? r = some i → ∃ s, t.slots[i]? = some s ∧ s.taken = true
  seen_le : ∀ {i : Nat} {s : ReaderSlot}, t.slots[i]? = some s → s.seen ≤ t.token
  token_pos : 0 < t.token

theorem sound_new (maxReaders : Nat) : (new maxReaders).Sound := by
  have hnone : ∀ r, (new maxReaders).slotOf? r = none := fun _ => rfl
  refine ⟨attended_new maxReaders, fun {r r' i} hr => ?_, fun {r i} hr => ?_, fun {i s} hs => ?_,
    Nat.one_pos⟩
  · rw [hnone] at hr
    cases hr
  · rw [hnone] at hr
    cases hr
  · obtain rfl := List.eq_of_mem_replicate (List.mem_of_getElem? hs)
    exact Nat.zero_le _

/-- The slot that is given out next is held by nobody. -/
theorem Sound.ne_of_freeSlot? (h : t.Sound) {r i j : Nat} (hr : t.slotOf? r = some i)
    (hj : t.freeSlot? = some j) : i ≠ j := by
  rintro rfl
  obtain ⟨free, hfree, hnot⟩ := freeSlot?_eq_some hj
  obtain ⟨s, hs, htaken⟩ := h.taken hr
  rw [hs] at hfree
  obtain rfl := Option.some.inj hfree
  rw [hnot] at htaken
  cases htaken

/-- A change of one reader's token, to none or the newest. -/
theorem Sound.see (h : t.Sound) (r c : Nat) (hc : c ≤ t.token) :
    (t.updateSlot r fun s => { s with seen := c }).Sound := by
  refine ⟨attended_updateSlot t r _ (fun _ hs => hs) h.attended, fun {r₁ r₂ i} h1 h2 => ?_,
    fun {r' i} hr' => ?_, fun {i s} hs => ?_, ?_⟩
  · rw [slotOf?_updateSlot] at h1 h2
    exact h.exclusive h1 h2
  · rw [slotOf?_updateSlot] at hr'
    obtain ⟨s, hs, ht⟩ := h.taken hr'
    rw [getElem?_updateSlot, hs]
    split
    · exact ⟨_, rfl, ht⟩
    · exact ⟨s, rfl, ht⟩
  · rw [getElem?_updateSlot] at hs
    rw [token_updateSlot]
    split at hs
    · obtain ⟨s', -, rfl⟩ := Option.map_eq_some_iff.mp hs
      exact hc
    · exact h.seen_le hs
  · rw [token_updateSlot]
    exact h.token_pos

theorem Sound.register (h : t.Sound) : (t.advance .register).Sound := by
  cases hj : t.freeSlot? with
  | none =>
    have hsame : t.advance .register = t := by simp only [advance, hj]
    rw [hsame]
    exact h
  | some j =>
    have hnew : ∀ {r}, t.slotOf? r ≠ some j := fun hr => h.ne_of_freeSlot? hr hj rfl
    refine ⟨attended_advance t _ h.attended, fun {r r' i} h1 h2 => ?_, fun {r i} hr => ?_,
      fun {i s} hs => ?_, ?_⟩
    · rw [slotOf?_register hj] at h1 h2
      split at h1 <;> split at h2
      · next e1 e2 => rw [e1, e2]
      · cases h1
        exact absurd h2 hnew
      · cases h2
        exact absurd h1 hnew
      · exact h.exclusive h1 h2
    · rw [slotOf?_register hj] at hr
      rw [getElem?_register hj]
      split
      · exact ⟨_, rfl, rfl⟩
      · next hne =>
        split at hr
        · cases hr
          exact absurd rfl hne
        · exact h.taken hr
    · rw [getElem?_register hj] at hs
      rw [token_advance]
      split at hs
      · cases hs
        exact Nat.zero_le _
      · exact h.seen_le hs
    · rw [token_advance]
      exact h.token_pos

theorem Sound.leave (h : t.Sound) (r₀ : Nat) : (t.advance (.leave r₀)).Sound := by
  have hslots : ∀ i, (t.advance (.leave r₀)).slots[i]? =
      if t.slotOf? r₀ = some i then t.slots[i]?.map fun _ => {} else t.slots[i]? :=
    fun i => getElem?_updateSlot t r₀ i _
  refine ⟨attended_advance t _ h.attended, fun {r r' i} h1 h2 => ?_, fun {r i} hr => ?_,
    fun {i s} hs => ?_, ?_⟩
  · rw [slotOf?_leave] at h1 h2
    split at h1
    · cases h1
    · split at h2
      · cases h2
      · exact h.exclusive h1 h2
  · rw [slotOf?_leave] at hr
    split at hr
    · cases hr
    · next hne =>
      rw [hslots, if_neg fun h0 => hne (h.exclusive hr h0)]
      exact h.taken hr
  · rw [hslots] at hs
    rw [token_advance]
    split at hs
    · obtain ⟨s', -, rfl⟩ := Option.map_eq_some_iff.mp hs
      exact Nat.zero_le _
    · exact h.seen_le hs
  · rw [token_advance]
    exact h.token_pos

theorem Sound.advance (h : t.Sound) (step : ReaderStep) : (t.advance step).Sound := by
  cases step with
  | register => exact h.register
  | online r => exact h.see r t.token (Nat.le_refl _)
  | offline r => exact h.see r 0 (Nat.zero_le _)
  | quiescent r => exact h.see r t.token (Nat.le_refl _)
  | leave r => exact h.leave r

theorem Sound.foldl_advance (h : t.Sound) (steps : List ReaderStep) :
    (steps.foldl Tracker.advance t).Sound := by
  induction steps generalizing t with
  | nil => exact h
  | cons step steps ih => exact ih (h.advance step)

theorem Sound.start (h : t.Sound) : t.start.Sound :=
  ⟨h.attended, h.exclusive, h.taken, fun hs => Nat.le_succ_of_le (h.seen_le hs),
    Nat.succ_pos _⟩

theorem Sound.synchronize (h : t.Sound) (meanwhile : Meanwhile) :
    (t.synchronize meanwhile).value.Sound :=
  h.start.foldl_advance _

/-! ### What a step leaves alone -/

/-- A reader keeps its slot, and the slot its content, while others take steps. -/
theorem Sound.advance_keeps (h : t.Sound) {r i : Nat} (hr : t.slotOf? r = some i)
    {step : ReaderStep} (hstep : step.by? ≠ some r) :
    (t.advance step).slotOf? r = some i ∧ (t.advance step).slots[i]? = t.slots[i]? := by
  have hupdate : ∀ {r'} (f : ReaderSlot → ReaderSlot), some r' ≠ some r →
      (t.updateSlot r' f).slotOf? r = some i ∧ (t.updateSlot r' f).slots[i]? = t.slots[i]? := by
    intro r' f hne
    refine ⟨(slotOf?_updateSlot ..).trans hr, ?_⟩
    rw [getElem?_updateSlot, if_neg fun h' => hne (congrArg some (h.exclusive h' hr))]
  cases step with
  | register =>
    cases hj : t.freeSlot? with
    | none =>
      have hsame : t.advance .register = t := by simp only [Tracker.advance, hj]
      rw [hsame]
      exact ⟨hr, rfl⟩
    | some j =>
      rw [slotOf?_register hj, if_neg (Nat.ne_of_lt (lt_of_slotOf? hr)), getElem?_register hj,
        if_neg (h.ne_of_freeSlot? hr hj)]
      exact ⟨hr, rfl⟩
  | online r' => exact hupdate _ hstep
  | offline r' => exact hupdate _ hstep
  | quiescent r' => exact hupdate _ hstep
  | leave r' =>
    rw [slotOf?_leave, if_neg fun heq => hstep (congrArg some heq.symm)]
    exact ⟨hr, (hupdate (fun _ => {}) hstep).2⟩

/-! ### A reader that is online -/

/-- The reader is online and has seen token `c` last. -/
def Inside (t : Tracker) (r c : Nat) : Prop :=
  0 < c ∧ ∃ i, t.slotOf? r = some i ∧ t.slots[i]? = some ⟨true, c⟩

/-- The reader is registered and may be inside a group. -/
def Online (t : Tracker) (r : Nat) : Prop := ∃ c, t.Inside r c

theorem Inside.le_token {r c : Nat} (h : t.Inside r c) (hs : t.Sound) : c ≤ t.token := by
  obtain ⟨-, i, -, hi⟩ := h
  exact hs.seen_le hi

/-- Steps of other readers leave a reader where it is. -/
theorem Inside.advance {r c : Nat} (h : t.Inside r c) (hs : t.Sound) {step : ReaderStep}
    (hstep : step.by? ≠ some r) : (t.advance step).Inside r c := by
  obtain ⟨hc, i, hr, hi⟩ := h
  obtain ⟨hr', hi'⟩ := hs.advance_keeps hr hstep
  exact ⟨hc, i, hr', hi'.trans hi⟩

theorem Inside.foldl_advance {r c : Nat} (h : t.Inside r c) (hs : t.Sound)
    {steps : List ReaderStep} (hsteps : ∀ step ∈ steps, step.by? ≠ some r) :
    (steps.foldl Tracker.advance t).Inside r c := by
  induction steps generalizing t with
  | nil => exact h
  | cons step steps ih =>
    exact ih (h.advance hs (hsteps step List.mem_cons_self)) (hs.advance step)
      fun step' hmem => hsteps step' (List.mem_cons_of_mem step hmem)

/-- No grace period with a newer token is over. -/
theorem Inside.check_eq_false {r c token : Nat} (h : t.Inside r c) (hlt : c < token) :
    t.check token = false := by
  obtain ⟨hc, i, -, hi⟩ := h
  rw [check, List.all_eq_false]
  refine ⟨⟨true, c⟩, List.mem_of_getElem? hi, ?_⟩
  simp only [ReaderSlot.past, Bool.not_true, Bool.false_or, Bool.or_eq_true, beq_iff_eq,
    decide_eq_true_eq]
  omega

/-- A wait does not end before the reader has taken a step. -/
theorem Inside.steps_in_wait {r c : Nat} (h : t.Inside r c) (hs : t.Sound)
    (meanwhile : Meanwhile) :
    ∃ step, .reader step ∈ (t.synchronize meanwhile).events ∧ step.by? = some r := by
  by_contra hno
  have hstays : (t.synchronize meanwhile).value.Inside r c := by
    refine Inside.foldl_advance (t := t.start) h hs.start fun step hmem hby => hno ⟨step, ?_, hby⟩
    exact List.mem_append_left _ (List.mem_map_of_mem hmem)
  have hover := check_synchronize t meanwhile hs.attended
  have hnewer : c < t.start.token := Nat.lt_succ_of_le (h.le_token hs)
  rw [hstays.check_eq_false hnewer] at hover
  cases hover

/-! ### Trackers that differ in their tokens -/

/-- The same readers in the same slots, online or not alike. -/
structure Alike (t t' : Tracker) : Prop where
  readers : t'.readers = t.readers
  slots : ∀ i : Nat,
    t'.slots[i]?.map ReaderSlot.presence = t.slots[i]?.map ReaderSlot.presence

theorem Alike.refl (t : Tracker) : Alike t t := ⟨rfl, fun _ => rfl⟩

theorem Alike.slotOf? (h : Alike t t') (r : Nat) : t'.slotOf? r = t.slotOf? r := by
  rw [Tracker.slotOf?, h.readers]
  rfl

theorem Alike.freeSlot? (h : Alike t t') : t'.freeSlot? = t.freeSlot? := by
  have hmap : t'.slots.map ReaderSlot.presence = t.slots.map ReaderSlot.presence := by
    refine List.ext_getElem? fun i => ?_
    rw [List.getElem?_map, List.getElem?_map, h.slots]
  have hfree : ∀ t : Tracker, t.freeSlot? =
      (t.slots.map ReaderSlot.presence).findIdx? fun s => !s.1 := by
    intro t
    rw [List.findIdx?_map]
    rfl
  rw [hfree, hfree, hmap]

theorem Alike.updateSlot (h : Alike t t') (r : Nat) {f f' : ReaderSlot → ReaderSlot}
    (hf : ∀ {s s'}, s'.presence = s.presence → (f' s').presence = (f s).presence) :
    Alike (t.updateSlot r f) (t'.updateSlot r f') := by
  refine ⟨?_, fun i => ?_⟩
  · have hreaders : ∀ (t : Tracker) (f : ReaderSlot → ReaderSlot),
        (t.updateSlot r f).readers = t.readers := by
      intro t f
      unfold Tracker.updateSlot
      split <;> rfl
    rw [hreaders, hreaders, h.readers]
  · have hi := h.slots i
    rw [getElem?_updateSlot, getElem?_updateSlot, h.slotOf?]
    split
    · cases hs : t.slots[i]? <;> cases hs' : t'.slots[i]? <;> rw [hs, hs'] at hi
      · rfl
      · cases hi
      · cases hi
      · exact congrArg some (hf (Option.some.inj hi))
    · exact hi

/-- A step is taken alike in both, since no token is zero. -/
theorem Alike.advance (h : Alike t t') (ht : 0 < t.token) (ht' : 0 < t'.token)
    (step : ReaderStep) : Alike (t.advance step) (t'.advance step) := by
  have hseen : ∀ {s s' : ReaderSlot} {c c' : Nat}, s'.presence = s.presence →
      (c' == 0) = (c == 0) →
        ReaderSlot.presence { s' with seen := c' } = ReaderSlot.presence { s with seen := c } := by
    intro s s' c c' hs hc
    have htaken : s'.taken = s.taken := congrArg Prod.fst hs
    exact Prod.ext htaken hc
  have hpos : (t'.token == 0) = (t.token == 0) := by
    rw [beq_eq_false_iff_ne.mpr (Nat.ne_of_gt ht), beq_eq_false_iff_ne.mpr (Nat.ne_of_gt ht')]
  cases step with
  | register =>
    cases hj : t.freeSlot? with
    | none =>
      have hj' := h.freeSlot?.trans hj
      simpa only [Tracker.advance, hj, hj'] using h
    | some j =>
      have hj' := h.freeSlot?.trans hj
      refine ⟨?_, fun i => ?_⟩
      · simp only [Tracker.advance, hj, hj', h.readers]
      · rw [getElem?_register hj, getElem?_register hj']
        split
        · rfl
        · exact h.slots i
  | online r => exact h.updateSlot r fun hs => hseen hs hpos
  | offline r => exact h.updateSlot r fun hs => hseen hs rfl
  | quiescent r => exact h.updateSlot r fun hs => hseen hs hpos
  | leave r =>
    have hgone : Alike (t.updateSlot r fun _ => {}) (t'.updateSlot r fun _ => {}) :=
      h.updateSlot r fun _ => rfl
    refine ⟨?_, hgone.slots⟩
    show t'.readers.set r none = t.readers.set r none
    rw [h.readers]

theorem Alike.online {r : Nat} (h : Alike t t') (ho : t.Online r) : t'.Online r := by
  obtain ⟨c, hc, i, hr, hi⟩ := ho
  have hslot := h.slots i
  rw [hi] at hslot
  obtain ⟨⟨taken, seen⟩, hs, hpresence⟩ := Option.map_eq_some_iff.mp hslot
  obtain ⟨htaken, hseen⟩ := Prod.mk.inj hpresence
  refine ⟨seen, ?_, i, (h.slotOf? r).trans hr, ?_⟩
  · rw [beq_eq_false_iff_ne.mpr (Nat.ne_of_gt hc), beq_eq_false_iff_ne] at hseen
    exact Nat.pos_of_ne_zero hseen
  · rw [hs]
    exact congrArg (fun b => some (ReaderSlot.mk b seen)) htaken

end Tracker

end Dir248
