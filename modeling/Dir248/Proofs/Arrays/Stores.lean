import Dir248.Proofs.Arrays.Answers
import Dir248.Proofs.Traces
import Dir248.Words.Reduced

/-!
# One slot at a time

The writer stores one slot after the other, and readers may look up between any two stores.
What they find there depends on the slots alone: as long as every slot holds what it held
before an operation or what it will hold after it, and no bucket moves to a group whose slots
change, an address has its old answer or its new one.

* **`Write.each`**, **`Event.stores`** — a store, and the trace of an operation, slot by slot.
* **`Reduced.foldl_each`** — the slots of a store, one after the other, make the store.
* **`Arrays.Between`**, **`Between.answer`** — arrays on the way from one state to another.
* **`Arrays.Passes`** — no prefix of some stores shows an answer that is neither old nor new.
* **`passes_of_agrees`**, **`passes_each`** — stores of what the slots hold in the end, and any
  single store.
-/

namespace Dir248

/-! ### Stores of one slot -/

/-- The slots that a store changes, one after the other. -/
def Write.each : Write → List Write
  | .buckets start count e => (List.range' start count).map fun i => .buckets i 1 e
  | .slots start count s => (List.range' start count).map fun j => .slots j 1 s

namespace Event

/-- The stores among some events, slot by slot. -/
def stores (es : List Event) : List Write := (es.filterMap write?).flatMap Write.each

theorem stores_append (es es' : List Event) : stores (es ++ es') = stores es ++ stores es' := by
  rw [stores, List.filterMap_append, List.flatMap_append]
  rfl

theorem stores_of_no_write {es : List Event} (h : ∀ e ∈ es, e.write? = none) :
    stores es = [] := by
  rw [stores, List.filterMap_eq_nil_iff.mpr h]
  rfl

theorem stores_write (w : Write) : stores [.write w] = w.each := List.append_nil _

end Event

namespace Traced

variable {α β : Type}

/-- The stores of a computation, slot by slot. -/
def stores (x : Traced α) : List Write := Event.stores x.events

theorem writes_bind (x : Traced α) (f : α → Traced β) :
    (x >>= f).writes = x.writes ++ (f x.value).writes := List.filterMap_append

theorem writes_require (b : Bool) (f : Fault) : (require b f).writes = [] := by
  cases b <;> rfl

end Traced

namespace Words

/-- To store a word to a range is to store it to one place after the other. -/
theorem foldl_fill {h : Nat} {t : Words h} (ht : Reduced t) (w : Word) (start count : Nat) :
    (List.range' start count).foldl (fun t i => t.fill i (i + 1) w) t =
      t.fill start (start + count) w := by
  induction count generalizing start t with
  | zero =>
    refine ht.ext (reduced_fill ht ..) fun i hi => ?_
    rw [get_fill _ _ _ _ _ hi, if_neg (by omega)]
  | succ count ih =>
    have hfirst := reduced_fill ht start (start + 1) w
    rw [List.range'_succ, List.foldl_cons, ih hfirst]
    refine (reduced_fill hfirst ..).ext (reduced_fill ht ..) fun i hi => ?_
    rw [get_fill _ _ _ _ _ hi, get_fill _ _ _ _ _ hi, get_fill _ _ _ _ _ hi, ← ite_or]
    exact if_congr (by omega) rfl rfl

end Words

namespace Arrays

variable {t t' t'' u : Arrays} {w : Write} {ws ws' : List Write}

/-! ### Arrays in their shortest form -/

/-- Both arrays are in their shortest form. -/
structure Reduced (t : Arrays) : Prop where
  buckets : t.buckets.Reduced
  slots : t.slots.Reduced

theorem reduced_new (groups : Nat) : Reduced { groups } := ⟨.uniform 0, .uniform 0⟩

theorem Reduced.apply (h : t.Reduced) (w : Write) : (t.apply w).Reduced := by
  cases w with
  | buckets start count e => exact ⟨Words.reduced_fill h.buckets .., h.slots⟩
  | slots start count s => exact ⟨h.buckets, Words.reduced_fill h.slots ..⟩

theorem Reduced.foldl (h : t.Reduced) (ws : List Write) : (ws.foldl Arrays.apply t).Reduced := by
  induction ws generalizing t with
  | nil => exact h
  | cons w ws ih => exact ih (h.apply w)

/-- The slots of a store, one after the other, make the store. -/
theorem Reduced.foldl_each (h : t.Reduced) (w : Write) :
    w.each.foldl Arrays.apply t = t.apply w := by
  cases w with
  | buckets start count e =>
    have hone : ∀ (is : List Nat) (b : Words 24),
        (is.map fun i => Write.buckets i 1 e).foldl Arrays.apply { t with buckets := b } =
          { t with buckets := is.foldl (fun b i => b.fill i (i + 1) e.encode) b } := by
      intro is b
      induction is generalizing b with
      | nil => rfl
      | cons i is ih => exact ih _
    refine (hone (List.range' start count) t.buckets).trans ?_
    rw [Words.foldl_fill h.buckets]
    rfl
  | slots start count s =>
    have hone : ∀ (js : List Nat) (b : Words 32),
        (js.map fun j => Write.slots j 1 s).foldl Arrays.apply { t with slots := b } =
          { t with slots := js.foldl (fun b j => b.fill j (j + 1) s.encode) b } := by
      intro js b
      induction js generalizing b with
      | nil => rfl
      | cons j js ih => exact ih _
    refine (hone (List.range' start count) t.slots).trans ?_
    rw [Words.foldl_fill h.slots]
    rfl

theorem Reduced.foldl_flatMap_each (h : t.Reduced) (ws : List Write) :
    (ws.flatMap Write.each).foldl Arrays.apply t = ws.foldl Arrays.apply t := by
  induction ws generalizing t with
  | nil => rfl
  | cons w ws ih => rw [List.flatMap_cons, List.foldl_append, h.foldl_each, ih (h.apply w)]; rfl

/-! ### Arrays on their way -/

/-- The arrays hold what a store stores. -/
def Agrees (t : Arrays) : Write → Prop
  | .buckets start count e =>
    ∀ i, start ≤ i → i < start + count → i < bucketCount → t.entryAt i = e.cut
  | .slots start count s => ∀ j, start ≤ j → j < start + count → j < 2 ^ 32 → t.slotAt j = s.cut

theorem agrees_apply (t : Arrays) (w : Write) : (t.apply w).Agrees w := by
  cases w with
  | buckets start count e =>
    intro i h1 h2 hi
    rw [entryAt_store t start count e i hi, if_pos ⟨h1, h2⟩]
  | slots start count s =>
    intro j h1 h2 hj
    rw [slotAt_store t start count s j hj, if_pos ⟨h1, h2⟩]

theorem Agrees.each (h : t.Agrees w) {v : Write} (hv : v ∈ w.each) : t.Agrees v := by
  cases w with
  | buckets start count e =>
    obtain ⟨k, hk, rfl⟩ := List.mem_map.mp hv
    obtain ⟨h1, h2⟩ := List.mem_range'_1.mp hk
    intro i h3 h4 hi
    exact h i (by omega) (by omega) hi
  | slots start count s =>
    obtain ⟨k, hk, rfl⟩ := List.mem_map.mp hv
    obtain ⟨h1, h2⟩ := List.mem_range'_1.mp hk
    intro j h3 h4 hj
    exact h j (by omega) (by omega) hj

/-- Every slot of `u` is as in `t` or as in `t'`. -/
structure Between (t t' u : Arrays) : Prop where
  entries : ∀ {i}, i < bucketCount → u.entryAt i = t.entryAt i ∨ u.entryAt i = t'.entryAt i
  slots : ∀ {j}, j < 2 ^ 32 → u.slotAt j = t.slotAt j ∨ u.slotAt j = t'.slotAt j

theorem Between.apply (h : Between t t' u) (hw : t'.Agrees w) : Between t t' (u.apply w) := by
  cases w with
  | buckets start count e =>
    refine ⟨fun {i} hi => ?_, h.slots⟩
    rw [entryAt_store u start count e i hi]
    split
    · next hrange => exact .inr (hw i hrange.1 hrange.2 hi).symm
    · exact h.entries hi
  | slots start count s =>
    refine ⟨h.entries, fun {j} hj => ?_⟩
    rw [slotAt_store u start count s j hj]
    split
    · next hrange => exact .inr (hw j hrange.1 hrange.2 hj).symm
    · exact h.slots hj

/-- Stores of what the slots hold in the end keep the arrays on their way. -/
theorem Between.foldl (h : Between t t' u) (hws : ∀ w ∈ ws, t'.Agrees w) :
    Between t t' (ws.foldl Arrays.apply u) := by
  induction ws generalizing u with
  | nil => exact h
  | cons w ws ih =>
    refine ih (h.apply (hws w List.mem_cons_self)) fun v hv => ?_
    exact hws v (List.mem_cons_of_mem w hv)

/-- Where a bucket comes to a group or leaves one, the slots of the group stay. -/
def Steady (t t' : Arrays) : Prop :=
  ∀ {i g}, i < bucketCount → (t.entryAt i = .group g ∨ t'.entryAt i = .group g) →
    t'.entryAt i = t.entryAt i ∨
      ∀ o, o < groupSize → t'.slotAt (groupStart g + o) = t.slotAt (groupStart g + o)

theorem steady_apply (t : Arrays) (w : Write) : Steady t (t.apply w) := by
  intro i g _ _
  cases w with
  | buckets start count e => exact .inr fun _ _ => rfl
  | slots start count s => exact .inl rfl

theorem answer_of_entryAt_eq {a : Address} (h : t'.entryAt (bucket a) = t.entryAt (bucket a))
    (hslot : ∀ g, t.entryAt (bucket a) = .group g →
      t'.slotAt (groupStart g + offset a) = t.slotAt (groupStart g + offset a)) :
    t'.answer a = t.answer a := by
  unfold answer
  rw [h]
  split
  · rfl
  · rfl
  · next g hg => rw [hslot g hg]

/-- On the way between two states an address is answered as in one of them. -/
theorem Between.answer (h : Between t t' u) (hsteady : Steady t t') (a : Address) :
    u.answer a = t.answer a ∨ u.answer a = t'.answer a := by
  have ha := bucket_lt a
  have hslot : ∀ {g}, (t.entryAt (bucket a) = .group g ∨ t'.entryAt (bucket a) = .group g) →
      u.slotAt (groupStart g + offset a) = t.slotAt (groupStart g + offset a) ∨
        u.slotAt (groupStart g + offset a) = t'.slotAt (groupStart g + offset a) := by
    intro g hg
    have hlt : g < maxGroups := hg.elim Entry.group_lt Entry.group_lt
    exact h.slots ((inGroup_add g (offset_lt a)).lt hlt)
  by_cases hgroup : ∃ g, u.entryAt (bucket a) = .group g
  · obtain ⟨g, hg⟩ := hgroup
    rcases h.entries ha with heq | heq
    · have hname := heq.symm.trans hg
      rcases hslot (.inl hname) with hs | hs
      · exact .inl (by rw [answer_of_group hg, answer_of_group hname, hs])
      · rcases hsteady ha (.inl hname) with hsame | hsame
        · exact .inr (by rw [answer_of_group hg, answer_of_group (hsame.trans hname), hs])
        · exact .inl (by
            rw [answer_of_group hg, answer_of_group hname, hs, hsame _ (offset_lt a)])
    · have hname := heq.symm.trans hg
      rcases hslot (.inr hname) with hs | hs
      · rcases hsteady ha (.inr hname) with hsame | hsame
        · exact .inl (by rw [answer_of_group hg, answer_of_group (hsame.symm.trans hname), hs])
        · exact .inr (by
            rw [answer_of_group hg, answer_of_group hname, hs, hsame _ (offset_lt a)])
      · exact .inr (by rw [answer_of_group hg, answer_of_group hname, hs])
  · rw [not_exists] at hgroup
    rcases h.entries ha with heq | heq
    · exact .inl (answer_of_entryAt_eq heq fun g hg => absurd (heq.trans hg) (hgroup g))
    · exact .inr (answer_of_entryAt_eq heq fun g hg => absurd (heq.trans hg) (hgroup g))

/-! ### Stores that nobody catches halfway -/

/-- The stores lead to the arrays `t'`, and after every few of them each address has its
answer of before or the one of `t'`. -/
structure Passes (t : Arrays) (ws : List Write) (t' : Arrays) : Prop where
  foldl_eq : ws.foldl apply t = t'
  answer : ∀ {done}, done <+: ws → ∀ a, (done.foldl apply t).answer a = t.answer a ∨
    (done.foldl apply t).answer a = t'.answer a

theorem passes_nil (t : Arrays) : t.Passes [] t := by
  refine ⟨rfl, fun hdone a => .inl ?_⟩
  rw [List.prefix_nil.mp hdone]
  rfl

theorem Passes.reduced (h : t.Passes ws t') (hr : t.Reduced) : t'.Reduced := by
  rw [← h.foldl_eq]
  exact hr.foldl ws

/-- Two such lists of stores in a row, if an address does not change its answer twice. -/
theorem Passes.append (h : t.Passes ws t') (h' : t'.Passes ws' t'')
    (hmid : ∀ a, t'.answer a = t.answer a ∨ t'.answer a = t''.answer a) :
    t.Passes (ws ++ ws') t'' := by
  refine ⟨by rw [List.foldl_append, h.foldl_eq, h'.foldl_eq], fun {done} hdone a => ?_⟩
  obtain ⟨rest, hrest⟩ := hdone
  rcases List.append_eq_append_iff.mp hrest with ⟨more, rfl, -⟩ | ⟨more, rfl, hmore⟩
  · rcases h.answer ⟨more, rfl⟩ a with heq | heq
    · exact .inl heq
    · exact (hmid a).imp heq.trans heq.trans
  · rw [List.foldl_append, h.foldl_eq]
    rcases h'.answer ⟨rest, hmore.symm⟩ a with heq | heq
    · exact (hmid a).imp heq.trans heq.trans
    · exact .inr heq

/-- Stores of what the slots hold in the end. -/
theorem passes_of_agrees (hr : t.Reduced) (hws : ∀ w ∈ ws, t'.Agrees w)
    (heq : ws.foldl apply t = t') (hsteady : Steady t t') :
    t.Passes (ws.flatMap Write.each) t' := by
  refine ⟨(hr.foldl_flatMap_each ws).trans heq, fun {done} hdone => ?_⟩
  have hbetween : Between t t' (done.foldl Arrays.apply t) := by
    refine Between.foldl ⟨fun _ => .inl rfl, fun _ => .inl rfl⟩ fun v hv => ?_
    obtain ⟨w, hw, hvw⟩ := List.mem_flatMap.mp (hdone.subset hv)
    exact (hws w hw).each hvw
  exact hbetween.answer hsteady

/-- A store to any range, slot by slot. -/
theorem passes_each (hr : t.Reduced) (w : Write) : t.Passes w.each (t.apply w) := by
  have hone : t.Passes ([w].flatMap Write.each) (t.apply w) := by
    refine passes_of_agrees hr (fun v hv => ?_) rfl (steady_apply t w)
    rw [List.mem_singleton.mp hv]
    exact agrees_apply t w
  rwa [List.flatMap_singleton] at hone

/-! ### The stores of a sweep -/

theorem writes_store (t : Arrays) (w : Write) : (t.store w).writes = [w] := by
  rw [store, Traced.writes_bind, Traced.writes_require]
  rfl

/-- A sweep of slots stores once for each stretch that its change has something for. -/
theorem writes_sweepSlots (t : Arrays) (lo hi : Nat) (change : Slot → Option Slot) :
    (t.sweepSlots lo hi change).writes = (t.slots.pieces 0 lo hi).filterMap fun q =>
      (change (.decode q.word)).map (.slots q.start q.length) := by
  rw [sweepSlots, Traced.writes_bind, Traced.writes_require, List.nil_append]
  generalize t.slots.pieces 0 lo hi = qs
  induction qs generalizing t with
  | nil => rfl
  | cons q qs ih =>
    rw [List.foldlM_cons, Traced.writes_bind, ih, List.filterMap_cons]
    cases change (.decode q.word) with
    | some s => rw [writes_store]; rfl
    | none => rfl

/-- Where a sweep of slots makes of each slot what `t'` holds, it stores what `t'` holds. -/
theorem agrees_sweepSlots {lo hi : Nat} {change : Slot → Option Slot} (hlo : lo ≤ hi)
    (hhi : hi ≤ 2 ^ 32)
    (h : ∀ j, lo ≤ j → j < hi → Slot.step change (u.slotAt j) = t'.slotAt j) :
    ∀ w ∈ (u.sweepSlots lo hi change).writes, t'.Agrees w := by
  intro w hw
  rw [writes_sweepSlots] at hw
  obtain ⟨q, hq, hchange⟩ := List.mem_filterMap.mp hw
  obtain ⟨s, hs, rfl⟩ := Option.map_eq_some_iff.mp hchange
  obtain ⟨h1, h2, hword⟩ := (Words.tiles_range u.slots hlo hhi).mem hq
  intro j h3 h4 _
  have hslot : u.slotAt j = .decode q.word := congrArg Slot.decode (hword j h3 h4)
  rw [← h j (by omega) (by omega), hslot, Slot.step_of_some hs]

section Sweep

variable {onEntry : Entry → Option Entry} {onSlot : Slot → Option Slot} {g : Nat}

/-- The change makes of each slot of the group what `t'` holds there. -/
def Due (onSlot : Slot → Option Slot) (t' u : Arrays) (g : Nat) : Prop :=
  ∀ j, InGroup g j → Slot.step onSlot (u.slotAt j) = t'.slotAt j

theorem Due.agrees_sweepGroup (h : Due onSlot t' u g) (hg : g < maxGroups) :
    ∀ w ∈ (u.sweepGroup g onSlot).writes, t'.Agrees w :=
  agrees_sweepSlots (Nat.le_add_right ..) (groupStart_add_le hg) fun j h1 h2 => h j ⟨h1, h2⟩

/-- A group may be swept again: the change has no effect on its own results. -/
theorem Due.sweepGroup (hidem : Slot.Idem onSlot) (h : Due onSlot t' u g) (hg : g < maxGroups) :
    Due onSlot t' (u.sweepGroup g onSlot).value g := by
  intro j hj
  rw [slotAt_sweepGroup u hg onSlot (hj.lt hg), if_pos hj, hidem _ (cut_slotAt u j)]
  exact h j hj

theorem Due.sweepStretch (hidem : Slot.Idem onSlot) (h : Due onSlot t' u g) (hg : g < maxGroups)
    {q : Piece} (hpos : 0 < q.length) :
    Due onSlot t' (Arrays.sweepStretch onEntry onSlot u q).value g := by
  intro j hj
  rw [slotAt_sweepStretch hidem (hj.lt hg) u q hpos]
  split
  · rw [hidem _ (cut_slotAt u j)]
    exact h j hj
  · exact h j hj

theorem Due.agrees_sweepGroups {α : Type} (hidem : Slot.Idem onSlot) (h : Due onSlot t' u g)
    (hg : g < maxGroups) (xs : List α) :
    ∀ w ∈ (xs.foldlM (fun t _ => Arrays.sweepGroup t g onSlot) u).writes, t'.Agrees w := by
  induction xs generalizing u with
  | nil => exact nofun
  | cons x xs ih =>
    intro w hw
    rw [List.foldlM_cons, Traced.writes_bind, List.mem_append] at hw
    exact hw.elim (h.agrees_sweepGroup hg w) (ih (h.sweepGroup hidem hg) w)

theorem agrees_sweepStretch (hidem : Slot.Idem onSlot) {q : Piece}
    (hentry : ∀ i, q.start ≤ i → i < q.start + q.length →
      t'.entryAt i = Entry.step onEntry (.decode q.word))
    (hslots : ∀ {g}, Entry.decode q.word = .group g → Due onSlot t' u g) :
    ∀ w ∈ (sweepStretch onEntry onSlot u q).writes, t'.Agrees w := by
  intro w hw
  unfold sweepStretch at hw
  split at hw
  · next g hg => exact (hslots hg).agrees_sweepGroups hidem (Entry.group_lt hg) _ w hw
  · split at hw
    · next e he =>
      rw [writes_store, List.mem_singleton] at hw
      subst hw
      intro i h1 h2 _
      rw [hentry i h1 h2, Entry.step_of_some he]
    · cases hw

theorem agrees_sweepStretches (hidem : Slot.Idem onSlot) (words : Nat → Word) (qs : List Piece)
    {lo hi : Nat} (hqs : Words.Tiles words lo hi qs)
    (hentry : ∀ i, lo ≤ i → i < hi → t'.entryAt i = Entry.step onEntry (.decode (words i)))
    (hslots : ∀ {i g}, lo ≤ i → i < hi → Entry.decode (words i) = .group g → Due onSlot t' u g) :
    ∀ w ∈ (qs.foldlM (sweepStretch onEntry onSlot) u).writes, t'.Agrees w := by
  induction qs generalizing lo u with
  | nil => exact nofun
  | cons q rest ih =>
    obtain ⟨hstart, hpos, hword, hrest⟩ := hqs
    have hle := hrest.le
    intro w hw
    rw [List.foldlM_cons, Traced.writes_bind, List.mem_append] at hw
    refine hw.elim (agrees_sweepStretch hidem (fun i h1 h2 => ?_) (fun {g} hg => ?_) w)
      (ih hrest (fun i h1 h2 => hentry i (by omega) h2) (fun {i g} h1 h2 hg => ?_) w)
    · rw [hentry i (by omega) (by omega), hword i (by omega) (by omega)]
    · refine hslots (Nat.le_refl lo) (by omega) ?_
      rw [hword lo (Nat.le_refl lo) (by omega)]
      exact hg
    · exact (hslots (by omega) h2 hg).sweepStretch hidem (Entry.group_lt hg) hpos

/-- A sweep of buckets stores what the slots hold in the end. -/
theorem agrees_sweepBuckets (t : Arrays) (hplain : Entry.Plain onEntry)
    (hidem : Slot.Idem onSlot) {lo hi : Nat} (hlo : lo ≤ hi) (hhi : hi ≤ bucketCount) :
    ∀ w ∈ (t.sweepBuckets lo hi onEntry onSlot).writes,
      (t.sweepBuckets lo hi onEntry onSlot).value.Agrees w := by
  have htiles := Words.tiles_range t.buckets hlo hhi
  intro w hw
  generalize hfinal : (t.sweepBuckets lo hi onEntry onSlot).value = t'
  rw [sweepBuckets, Traced.writes_bind, Traced.writes_require, List.nil_append] at hw
  refine agrees_sweepStretches hidem _ _ htiles (fun i h1 h2 => ?_) (fun {i g} h1 h2 hg j hj => ?_)
    w hw
  · rw [← hfinal, entryAt_sweepBuckets t lo hi onEntry onSlot hplain.group hlo hhi i (by omega),
      if_pos ⟨h1, h2⟩]
    rfl
  · have hlt : j < 2 ^ 32 := hj.lt (Entry.group_lt hg)
    rw [← hfinal, slotAt_sweepBuckets hidem hlt t lo hi hlo hhi, if_pos ⟨i, g, h1, h2, hg, hj⟩]

end Sweep

/-- Buckets that name the same groups before and after. -/
theorem steady_of_names
    (h : ∀ {i g}, i < bucketCount → (t'.entryAt i = .group g ↔ t.entryAt i = .group g)) :
    Steady t t' := by
  intro i g hi hg
  rcases hg with hg | hg
  · exact .inl (((h hi).mpr hg).trans hg.symm)
  · exact .inl (hg.trans ((h hi).mp hg).symm)

end Arrays

end Dir248
