import Dir248.Proofs.Arrays.Account
import Dir248.Proofs.Prefixes

/-!
# What sweeps and links do to the answers

An address is answered by its bucket or, where that names a group, by its slot in the group.
No two buckets name one group, so a change of a group shows in the answers of one bucket
only.

* **`answer_sweepBuckets`** — a sweep of buckets, told by the entry or slot that answered.
* **`answer_sweepSlots`** — a sweep of the slots of a deep prefix.
* **`foldedEntry_verdict`** — a verdict folds the groups whose slots answer alike.
* **`answer_link`**, **`answer_fold`** — a bucket gets a group, and loses it.
-/

namespace Dir248

namespace Entry

/-- The route the entry answers with by itself. -/
def answer : Entry → Option Route
  | .leaf r => some r
  | _ => none

/-- What becomes of an entry when a change of it is stored. -/
def step (change : Entry → Option Entry) (e : Entry) : Entry := ((change e).map cut).getD e

theorem step_of_none {change : Entry → Option Entry} {e : Entry} (h : change e = none) :
    step change e = e := by
  rw [step, h]
  rfl

theorem step_of_some {change : Entry → Option Entry} {e e' : Entry} (h : change e = some e') :
    step change e = e'.cut := by
  rw [step, h]
  rfl

theorem cut_ofRoute {cover : Option Route} (hc : ∀ c, cover = some c → c.Fits) :
    (ofRoute cover).cut = ofRoute cover := by
  cases hcover : cover with
  | none => rfl
  | some c => exact cut_leaf (hc c hcover)

theorem answer_ofRoute (cover : Option Route) : (ofRoute cover).answer = cover := by
  cases cover <;> rfl

theorem answer_step_claim {r : Route} (hr : r.Fits) {e : Entry} (he : ∀ g, e ≠ .group g) :
    (step (claim r) e).answer = r.over e.answer := by
  cases e with
  | invalid =>
    have hsome : claim r .invalid = some (.leaf r) := rfl
    rw [step_of_some hsome, cut_leaf hr]
    rfl
  | leaf q =>
    by_cases hle : q.depth ≤ r.depth
    · have hsome : claim r (.leaf q) = some (.leaf r) := if_pos hle
      rw [step_of_some hsome, cut_leaf hr]
      exact (if_pos hle).symm
    · rw [step_of_none (if_neg hle)]
      exact (if_neg hle).symm
  | group g => exact absurd rfl (he g)

theorem answer_step_cede {depth : Nat} {cover : Option Route} (hc : ∀ c, cover = some c → c.Fits)
    {e : Entry} {q : Route} (hq : e.answer = some q) :
    (step (cede depth cover) e).answer = if depth < q.depth then some q else cover := by
  cases e with
  | invalid => cases hq
  | leaf q' =>
    cases hq
    by_cases hlt : depth < q.depth
    · rw [step_of_none (if_pos hlt), if_pos hlt]
      rfl
    · have hsome : cede depth cover (.leaf q) = some (ofRoute cover) := if_neg hlt
      rw [step_of_some hsome, if_neg hlt, cut_ofRoute hc, answer_ofRoute]
  | group g => cases hq

/-- A change that leaves groups alone and makes no new ones. -/
structure Plain (change : Entry → Option Entry) : Prop where
  group : ∀ g, change (.group g) = none
  plain : ∀ {e e'}, change e = some e' → ∀ g, e'.cut ≠ .group g

theorem cut_ne_group {e : Entry} (he : ∀ g, e ≠ .group g) (g : Nat) : e.cut ≠ .group g := by
  intro heq
  cases e with
  | invalid => cases heq
  | leaf r => cases heq
  | group g' => exact he g' rfl

theorem ofRoute_ne_group (cover : Option Route) (g : Nat) : ofRoute cover ≠ .group g := by
  cases cover <;> exact nofun

theorem plain_claim (r : Route) : Plain (claim r) := by
  refine ⟨fun _ => rfl, fun {e e'} h => cut_ne_group fun g => ?_⟩
  cases e with
  | invalid =>
    cases h
    exact nofun
  | leaf q =>
    simp only [claim] at h
    split at h
    · cases h
      exact nofun
    · cases h
  | group g' => cases h

theorem plain_cede (depth : Nat) (cover : Option Route) : Plain (cede depth cover) := by
  refine ⟨fun _ => rfl, fun {e e'} h => cut_ne_group fun g => ?_⟩
  cases e with
  | invalid =>
    cases h
    exact ofRoute_ne_group cover g
  | leaf q =>
    simp only [cede] at h
    split at h
    · cases h
    · cases h
      exact ofRoute_ne_group cover g
  | group g' => cases h

theorem Plain.step_eq_group {change : Entry → Option Entry} (h : Plain change) (e : Entry)
    (g : Nat) : step change e = .group g ↔ e = .group g := by
  cases hc : change e with
  | none => rw [step_of_none hc]
  | some e' =>
    rw [step_of_some hc]
    refine ⟨fun heq => absurd heq (h.plain hc g), ?_⟩
    intro heq
    subst heq
    rw [h.group] at hc
    cases hc

end Entry

namespace Arrays

variable {t : Arrays} {away : List Nat}

theorem answer_of_group {a : Address} {g : Nat} (h : t.entryAt (bucket a) = .group g) :
    t.answer a = (t.slotAt (groupStart g + offset a)).answer := by
  rw [answer, h]

theorem answer_of_not_group {a : Address} (h : ∀ g, t.entryAt (bucket a) ≠ .group g) :
    t.answer a = (t.entryAt (bucket a)).answer := by
  rw [answer]
  split
  · next he => rw [he]; rfl
  · next r he => rw [he]; rfl
  · next g he => exact absurd he (h g)

/-! ### Sweeps of buckets -/

section Sweep

variable {onEntry : Entry → Option Entry} {onSlot : Slot → Option Slot} {lo hi : Nat}

theorem entryAt_sweepBuckets_eq_group (hplain : Entry.Plain onEntry) (hlo : lo ≤ hi)
    (hhi : hi ≤ bucketCount) {i g : Nat} (hi' : i < bucketCount) :
    (t.sweepBuckets lo hi onEntry onSlot).value.entryAt i = .group g ↔ t.entryAt i = .group g := by
  rw [entryAt_sweepBuckets t lo hi onEntry onSlot hplain.group hlo hhi i hi']
  split
  · exact hplain.step_eq_group _ _
  · rfl

/-- A sweep of buckets changes what the groups of its range hold, and no other group. -/
theorem within_sweepBuckets (hplain : Entry.Plain onEntry) (hidem : Slot.Idem onSlot)
    (hocc : ∀ {s : Slot}, s.occupied = true → (Slot.step onSlot s).occupied = true)
    (hlo : lo ≤ hi) (hhi : hi ≤ bucketCount) :
    Within t (t.sweepBuckets lo hi onEntry onSlot).value t.Names := by
  refine ⟨groups_sweepBuckets .., fun hi' => entryAt_sweepBuckets_eq_group hplain hlo hhi hi',
    fun {g} hg hm o ho => ?_, fun {g} hg hno o ho => ?_⟩
  · obtain ⟨i, -, hname⟩ := hg
    have hin := inGroup_add g ho
    rw [slotAt_sweepBuckets hidem (hin.lt (Entry.group_lt hname)) t lo hi hlo hhi]
    split
    · exact hocc (hm o ho)
    · exact hm o ho
  · have hin := inGroup_add g ho
    rw [slotAt_sweepBuckets hidem (hin.lt hg) t lo hi hlo hhi, if_neg]
    intro h
    obtain ⟨i, g', -, hi', hname, hin'⟩ := h
    obtain rfl := hin.unique hin'
    exact hno ⟨i, by omega, hname⟩

/-- A sweep of buckets, told by the entry or the slot that answered. -/
theorem answer_sweepBuckets (h : t.Orderly away) (hplain : Entry.Plain onEntry)
    (hidem : Slot.Idem onSlot) (hlo : lo ≤ hi) (hhi : hi ≤ bucketCount) (a : Address) :
    (t.sweepBuckets lo hi onEntry onSlot).value.answer a =
      if lo ≤ bucket a ∧ bucket a < hi then
        match t.entryAt (bucket a) with
        | .group g => (Slot.step onSlot (t.slotAt (groupStart g + offset a))).answer
        | e => (Entry.step onEntry e).answer
      else t.answer a := by
  have ha := bucket_lt a
  have hentry := entryAt_sweepBuckets t lo hi onEntry onSlot hplain.group hlo hhi (bucket a) ha
  have hkind : ∀ g, (t.sweepBuckets lo hi onEntry onSlot).value.entryAt (bucket a) = .group g ↔
      t.entryAt (bucket a) = .group g :=
    fun _ => entryAt_sweepBuckets_eq_group hplain hlo hhi ha
  cases he : t.entryAt (bucket a) with
  | group g =>
    have hin := inGroup_add g (offset_lt a)
    have hrange : (∃ i g', lo ≤ i ∧ i < hi ∧ t.entryAt i = .group g' ∧
        InGroup g' (groupStart g + offset a)) ↔ lo ≤ bucket a ∧ bucket a < hi := by
      constructor
      · intro h'
        obtain ⟨i, g', h1, h2, hname, hin'⟩ := h'
        obtain rfl := hin.unique hin'
        rw [← h.unshared (by omega) ha hname he]
        exact ⟨h1, h2⟩
      · intro h'
        obtain ⟨h1, h2⟩ := h'
        exact ⟨bucket a, g, h1, h2, he, hin⟩
    rw [answer_of_group ((hkind g).mpr he), slotAt_sweepBuckets hidem
      (hin.lt (Entry.group_lt he)) t lo hi hlo hhi, answer_of_group he]
    by_cases hr : lo ≤ bucket a ∧ bucket a < hi
    · rw [if_pos (hrange.mpr hr), if_pos hr]
    · rw [if_neg (mt hrange.mp hr), if_neg hr]
  | invalid =>
    have hno : ∀ g, t.entryAt (bucket a) ≠ .group g := fun g => he ▸ nofun
    rw [answer_of_not_group fun g hg => hno g ((hkind g).mp hg), answer_of_not_group hno, hentry,
      he]
    split <;> rfl
  | leaf q =>
    have hno : ∀ g, t.entryAt (bucket a) ≠ .group g := fun g => he ▸ nofun
    rw [answer_of_not_group fun g hg => hno g ((hkind g).mp hg), answer_of_not_group hno, hentry,
      he]
    split <;> rfl

/-! ### Sweeps inside one group -/

/-- A sweep of slots changes nothing outside of the group it stays in. -/
theorem within_sweepSlots {g : Nat} (hgroup : groupStart g ≤ lo) (hlo : lo ≤ hi)
    (hhi : hi ≤ groupStart g + groupSize) (hg : g < maxGroups)
    (hocc : ∀ {s : Slot}, s.occupied = true → (Slot.step onSlot s).occupied = true) :
    Within t (t.sweepSlots lo hi onSlot).value (· = g) := by
  have hend := groupStart_add_le hg
  have hentry : ∀ i, (t.sweepSlots lo hi onSlot).value.entryAt i = t.entryAt i := by
    intro i
    rw [entryAt, buckets_sweepSlots]
    rfl
  refine ⟨groups_sweepSlots .., fun {i g'} _ => by rw [hentry], fun {g'} hg' hm o ho => ?_,
    fun {g'} hlt hne o ho => ?_⟩
  · have hin := inGroup_add g' ho
    subst hg'
    rw [slotAt_sweepSlots t lo hi onSlot hlo (by omega) _ (hin.lt hg)]
    split
    · exact hocc (hm o ho)
    · exact hm o ho
  · have hin := inGroup_add g' ho
    rw [slotAt_sweepSlots t lo hi onSlot hlo (by omega) _ (hin.lt hlt), if_neg]
    intro hrange
    exact hne (hin.unique (h := g) ⟨by omega, by omega⟩)

theorem slotRange_within {p : Prefix} (hp : p.IsBlock) (hd : bucketDepth < p.depth) (g : Nat) :
    groupStart g ≤ (p.slotRange g).1 ∧ (p.slotRange g).1 ≤ (p.slotRange g).2 ∧
      (p.slotRange g).2 ≤ groupStart g + groupSize := by
  have hspan := hp.offset_add_span_le hd
  simp only [Prefix.slotRange]
  omega

/-- A sweep of the slots of a deep prefix shows inside the prefix only. -/
theorem answer_sweepSlots (h : t.Orderly away) {p : Prefix} (hp : p.IsBlock)
    (hd : bucketDepth < p.depth) {g : Nat} (hg : t.entryAt (bucket p.base) = .group g)
    (a : Address) :
    (t.sweepSlots (p.slotRange g).1 (p.slotRange g).2 onSlot).value.answer a =
      if p.Covers a then (Slot.step onSlot (t.slotAt (groupStart g + offset a))).answer
      else t.answer a := by
  have hlt := Entry.group_lt hg
  obtain ⟨h1, h2, h3⟩ := slotRange_within hp hd g
  have hend := groupStart_add_le hlt
  have hentry : ∀ i, (t.sweepSlots (p.slotRange g).1 (p.slotRange g).2 onSlot).value.entryAt i =
      t.entryAt i := by
    intro i
    rw [entryAt, buckets_sweepSlots]
    rfl
  by_cases hb : bucket a = bucket p.base
  · have ha : t.entryAt (bucket a) = .group g := by rw [hb, hg]
    have hin := inGroup_add g (offset_lt a)
    rw [answer_of_group ((hentry _).trans ha), answer_of_group ha,
      slotAt_sweepSlots t _ _ onSlot h2 (by omega) _ (hin.lt hlt)]
    have hcovers := Prefix.covers_iff_slotRange hp hd g hb
    by_cases hc : p.Covers a
    · rw [if_pos hc, if_pos (hcovers.mp hc)]
      rfl
    · rw [if_neg hc, if_neg (mt hcovers.mpr hc)]
  · -- another bucket has another group, or none
    have hc : ¬ p.Covers a := fun hc => hb ((Prefix.covers_iff_offset hp hd a).mp hc).1
    rw [if_neg hc]
    by_cases hgroup : ∃ g', t.entryAt (bucket a) = .group g'
    · obtain ⟨g', ha⟩ := hgroup
      have hlt' := Entry.group_lt ha
      have hin := inGroup_add g' (offset_lt a)
      rw [answer_of_group ((hentry _).trans ha), answer_of_group ha,
        slotAt_sweepSlots t _ _ onSlot h2 (by omega) _ (hin.lt hlt'), if_neg]
      intro hrange
      have heq : g' = g := hin.unique (h := g) ⟨by omega, by omega⟩
      subst heq
      exact hb (h.unshared (bucket_lt a) (bucket_lt p.base) ha hg)
    · rw [not_exists] at hgroup
      rw [answer_of_not_group hgroup, answer_of_not_group fun g' => by rw [hentry]; exact hgroup g',
        hentry]

end Sweep

/-! ### Verdicts -/

/-- All slots of a group answer alike, and a bucket could answer so by itself. -/
def Foldable (t : Arrays) (g : Nat) (r : Option Route) : Prop :=
  (∀ q, r = some q → q.depth ≤ bucketDepth) ∧
    ∀ o, o < groupSize → (t.slotAt (groupStart g + o)).answer = r

theorem all_group_iff (t : Arrays) {g : Nat} (hg : g < maxGroups) (test : Slot → Bool) :
    (t.slots.all (groupStart g) (groupStart g + groupSize) fun w => test (.decode w)) = true ↔
      ∀ o, o < groupSize → test (t.slotAt (groupStart g + o)) = true := by
  rw [Words.all_iff t.slots _ _ _ (Nat.le_add_right ..) (groupStart_add_le hg)]
  constructor
  · intro h o ho
    obtain ⟨h1, h2⟩ := inGroup_add g ho
    exact h _ h1 h2
  · intro h i h1 h2
    obtain ⟨o, ho, rfl⟩ := InGroup.exists_offset ⟨h1, h2⟩
    exact h o ho

theorem valid_eq_false_iff (s : Slot) : (!s.valid) = true ↔ s.answer = none := by
  unfold Slot.answer
  cases s.valid <;> simp

/-- The first slot of a group decides what the others are compared with. -/
theorem verdict_of_first (t : Arrays) {g : Nat} (hg : g < maxGroups) {r : Option Route}
    (hr : (t.slotAt (groupStart g)).answer = r) :
    (t.Foldable g r → Plane.foldedEntry (t.verdict g) = some (.ofRoute r)) ∧
      (¬ t.Foldable g r → Plane.foldedEntry (t.verdict g) = none) := by
  cases r with
  | some r =>
    have hall : (r.depth ≤ bucketDepth ∧
        (t.slots.all (groupStart g) (groupStart g + groupSize) fun w =>
          (Slot.decode w).answer == some r) = true) ↔ t.Foldable g (some r) := by
      rw [all_group_iff t hg fun s => s.answer == some r]
      simp [Foldable]
    simp only [verdict, hr]
    refine ⟨fun hf => ?_, fun hf => ?_⟩
    · rw [if_pos (hall.mpr hf)]
      rfl
    · rw [if_neg (mt hall.mp hf)]
      rfl
  | none =>
    have hall : (t.slots.all (groupStart g) (groupStart g + groupSize) fun w =>
        !(Slot.decode w).valid) = true ↔ t.Foldable g none := by
      rw [all_group_iff t hg fun s => !s.valid]
      simp only [valid_eq_false_iff, Foldable]
      simp
    simp only [verdict, hr]
    refine ⟨fun hf => ?_, fun hf => ?_⟩
    · rw [if_pos (hall.mpr hf)]
      rfl
    · rw [if_neg (mt hall.mp hf)]
      rfl

/-- A verdict folds a group exactly when its slots answer alike, with a route that a bucket
can hold or with none. -/
theorem foldedEntry_verdict (t : Arrays) {g : Nat} (hg : g < maxGroups) (e : Entry) :
    Plane.foldedEntry (t.verdict g) = some e ↔ ∃ r, e = .ofRoute r ∧ t.Foldable g r := by
  obtain ⟨hfold, hkeep⟩ := verdict_of_first t hg rfl
  constructor
  · intro h
    by_cases hf : t.Foldable g (t.slotAt (groupStart g)).answer
    · rw [hfold hf] at h
      exact ⟨_, (Option.some.inj h).symm, hf⟩
    · rw [hkeep hf] at h
      cases h
  · intro h'
    obtain ⟨r, rfl, hf⟩ := h'
    have hfirst := hf.2 0 (by decide)
    rw [Nat.add_zero] at hfirst
    rw [hfirst] at hfold
    exact hfold hf

/-! ### Stores to one bucket -/

theorem answer_apply_bucket_of_ne (t : Arrays) {i : Nat} (e : Entry) {a : Address}
    (ha : bucket a ≠ i) : (t.apply (.buckets i 1 e)).answer a = t.answer a := by
  unfold answer
  rw [entryAt_apply_bucket t i e (bucket_lt a), if_neg ha]
  rfl

/-- A bucket that names a group answers with the slots of the group. -/
theorem answer_link (t : Arrays) {i g : Nat} (hg : g < maxGroups) {a : Address}
    (ha : bucket a = i) : (t.apply (.buckets i 1 (.group g))).answer a =
      (t.slotAt (groupStart g + offset a)).answer := by
  rw [answer_of_group (g := g), slotAt_store_buckets]
  exact (entryAt_link hg (bucket_lt a)).mpr (.inl ⟨ha, rfl⟩)

/-- A group that can be folded may be, and nobody notices. -/
theorem answer_fold {t : Arrays} {i g : Nat} (hi : t.entryAt i = .group g) {r : Option Route}
    (hr : t.Foldable g r) (hfits : ∀ q, r = some q → q.Fits) (a : Address) :
    (t.apply (.buckets i 1 (.ofRoute r))).answer a = t.answer a := by
  by_cases ha : bucket a = i
  · subst ha
    have hentry :
        (t.apply (.buckets (bucket a) 1 (.ofRoute r))).entryAt (bucket a) = .ofRoute r := by
      rw [entryAt_apply_bucket t _ _ (bucket_lt a), if_pos rfl, Entry.cut_ofRoute hfits]
    have hno : ∀ g', (t.apply (.buckets (bucket a) 1 (.ofRoute r))).entryAt (bucket a) ≠
        .group g' := by
      intro g'
      rw [hentry]
      exact Entry.ofRoute_ne_group r g'
    rw [answer_of_not_group hno, hentry, Entry.answer_ofRoute, answer_of_group hi,
      hr.2 _ (offset_lt a)]
  · exact answer_apply_bucket_of_ne t _ ha

end Arrays

end Dir248
