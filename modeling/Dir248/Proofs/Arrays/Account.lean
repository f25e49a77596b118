import Dir248.Proofs.Arrays.Sweeps
import Mathlib.Data.Finset.Card
import Mathlib.Data.Finset.Range

/-!
# Who holds a group

Every group is in one of three hands: a bucket names it, the writer keeps it away until its
readers have moved on, or it is free. The account of the arrays states this together with
the count of groups in use, and each store that hands a group on moves it from one hand to
the next. That the words of a free group are zero is stated apart, since no choice of the
writer depends on it.

* **`Arrays.Account`** — the three hands, given the list of groups kept away.
* **`Arrays.Orderly`** — as much of the account as the answers depend on, which leaves open what
  the groups kept away are and how many there are.
* **`Arrays.Clean`** — the free groups are blank.
* **`Account.free`**, **`Account.claim`** — away to free, free to away.
* **`Account.link`**, **`Account.unlink`** — away to named, named to away.
* **`Account.within`** — changes inside named groups leave the account alone.
* **`Account.inUse_le`**, **`Account.full_iff`** — no more groups are in use than there are, and
  as many only when no group is left.
-/

namespace Dir248

/-- Whether the first-level slot names a group. -/
def Entry.isGroup : Entry → Bool
  | .group _ => true
  | _ => false

theorem Entry.isGroup_iff (e : Entry) : e.isGroup = true ↔ ∃ g, e = .group g := by
  cases e <;> simp [isGroup]

namespace Arrays

/-! ### Hands -/

/-- A bucket names the group. -/
def Names (t : Arrays) (g : Nat) : Prop := ∃ i, i < bucketCount ∧ t.entryAt i = .group g

/-- All slots of the group carry the group bit. -/
def Marked (t : Arrays) (g : Nat) : Prop :=
  ∀ o, o < groupSize → (t.slotAt (groupStart g + o)).occupied = true

/-- All words of the group are zero. -/
def Blank (t : Arrays) (g : Nat) : Prop :=
  ∀ o, o < groupSize → t.slots.get (groupStart g + o) = 0

/-- The buckets that name a group. -/
def linkedBuckets (t : Arrays) : Finset Nat :=
  (Finset.range bucketCount).filter fun i => (t.entryAt i).isGroup

theorem mem_linkedBuckets (t : Arrays) (i : Nat) :
    i ∈ t.linkedBuckets ↔ i < bucketCount ∧ ∃ g, t.entryAt i = .group g := by
  rw [linkedBuckets, Finset.mem_filter, Finset.mem_range, Entry.isGroup_iff]

/-- The account of the groups: those named by a bucket, those kept away, and the free ones. -/
structure Account (t : Arrays) (inUse : Nat) (away : List Nat) : Prop where
  groups_le : t.groups ≤ maxGroups
  named : ∀ {i g}, i < bucketCount → t.entryAt i = .group g →
    g < t.groups ∧ t.Marked g ∧ g ∉ away
  unshared : ∀ {i j g}, i < bucketCount → j < bucketCount → t.entryAt i = .group g →
    t.entryAt j = .group g → i = j
  kept : ∀ {g}, g ∈ away → g < t.groups ∧ t.Marked g
  nodup : away.Nodup
  count : inUse = t.linkedBuckets.card + away.length

/-- The part of the account that the answers depend on: every group that a bucket names is one of
the table, marked, named once and not kept away. Of a group kept away it says nothing else. -/
structure Orderly (t : Arrays) (away : List Nat) : Prop where
  named : ∀ {i g}, i < bucketCount → t.entryAt i = .group g → g < t.groups ∧ t.Marked g
  unshared : ∀ {i j g}, i < bucketCount → j < bucketCount → t.entryAt i = .group g →
    t.entryAt j = .group g → i = j
  apart : ∀ {g}, g ∈ away → ¬ t.Names g

/-- The free groups are blank. -/
def Clean (t : Arrays) (away : List Nat) : Prop :=
  ∀ g, g < t.groups → ¬ t.Names g → g ∉ away → t.Blank g

/-- A slot shows its whole word. -/
theorem get_of_slotAt {t t' : Arrays} {j : Nat} (h : t'.slotAt j = t.slotAt j) :
    t'.slots.get j = t.slots.get j := by
  rw [← Slot.encode_decode (t'.slots.get j), ← Slot.encode_decode (t.slots.get j)]
  exact congrArg Slot.encode h

theorem get_eq_zero_iff (t : Arrays) (j : Nat) : t.slots.get j = 0 ↔ t.slotAt j = {} := by
  constructor
  · intro h
    rw [slotAt, h]
    rfl
  · intro h
    rw [← Slot.encode_decode (t.slots.get j)]
    exact congrArg Slot.encode h

/-- A group is not marked and blank. -/
theorem Blank.not_marked {t : Arrays} {g : Nat} (h : t.Blank g) : ¬ t.Marked g := by
  intro hm
  have hslot := hm 0 (by decide)
  rw [(get_eq_zero_iff t _).mp (h 0 (by decide))] at hslot
  cases hslot

section Account

variable {t : Arrays} {n : Nat} {away : List Nat}

theorem entryAt_new (groups i : Nat) : (entryAt { groups } i) = .invalid := by
  rw [entryAt, Words.get_uniform]
  rfl

theorem Account.orderly (h : t.Account n away) : t.Orderly away := by
  refine ⟨fun hi hname => ?_, h.unshared, fun {g} hmem => ?_⟩
  · obtain ⟨h1, h2, -⟩ := h.named hi hname
    exact ⟨h1, h2⟩
  · rintro ⟨i, hi, hname⟩
    exact (h.named hi hname).2.2 hmem

/-- What an account says beyond the order of the arrays is about the groups kept away. -/
theorem Orderly.account (h : t.Orderly away) (hle : t.groups ≤ maxGroups)
    (hkept : ∀ {g}, g ∈ away → g < t.groups ∧ t.Marked g) (hnodup : away.Nodup)
    (hcount : n = t.linkedBuckets.card + away.length) : t.Account n away := by
  refine ⟨hle, fun {i g} hi hname => ?_, h.unshared, hkept, hnodup, hcount⟩
  obtain ⟨h1, h2⟩ := h.named hi hname
  exact ⟨h1, h2, fun hmem => h.apart hmem ⟨i, hi, hname⟩⟩

theorem orderly_of_not_names (h : ∀ g, ¬ t.Names g) (away : List Nat) : t.Orderly away :=
  ⟨fun hi hname => absurd ⟨_, hi, hname⟩ (h _), fun hi _ hname => absurd ⟨_, hi, hname⟩ (h _),
    fun _ => h _⟩

theorem linkedBuckets_of_not_names (h : ∀ g, ¬ t.Names g) : t.linkedBuckets = ∅ := by
  refine Finset.eq_empty_of_forall_notMem fun i hi => ?_
  obtain ⟨hlt, g, hname⟩ := (mem_linkedBuckets t i).mp hi
  exact h g ⟨i, hlt, hname⟩

theorem not_names_new (groups g : Nat) : ¬ Names { groups } g := by
  rintro ⟨i, -, hname⟩
  rw [entryAt_new] at hname
  cases hname

theorem account_new {groups : Nat} (h : groups ≤ maxGroups) : Account { groups } 0 [] := by
  have hnone := not_names_new groups
  refine (orderly_of_not_names hnone []).account h nofun List.nodup_nil ?_
  rw [linkedBuckets_of_not_names hnone]
  rfl

theorem clean_new (groups : Nat) : Clean { groups } [] :=
  fun _ _ _ _ _ _ => Words.get_uniform ..

/-- The order of the groups kept away does not matter. -/
theorem Orderly.perm (h : t.Orderly away) {away' : List Nat} (hp : away.Perm away') :
    t.Orderly away' :=
  ⟨h.named, h.unshared, fun hmem => h.apart (hp.mem_iff.mpr hmem)⟩

theorem Account.perm (h : t.Account n away) {away' : List Nat} (hp : away.Perm away') :
    t.Account n away' := by
  refine (h.orderly.perm hp).account h.groups_le (fun hg => h.kept (hp.mem_iff.mpr hg))
    (hp.nodup_iff.mp h.nodup) ?_
  rw [← hp.length_eq]
  exact h.count

theorem Clean.perm (h : t.Clean away) {away' : List Nat} (hp : away.Perm away') :
    t.Clean away' :=
  fun g hg hn ha => h g hg hn fun hmem => ha (hp.mem_iff.mp hmem)

theorem Account.lt_maxGroups (h : t.Account n away) {g : Nat} (hg : g < t.groups) :
    g < maxGroups := Nat.lt_of_lt_of_le hg h.groups_le

theorem Account.not_names (h : t.Account n away) {g : Nat} (hg : g ∈ away) : ¬ t.Names g :=
  h.orderly.apart hg

/-- The number of groups kept away is part of the number in use. -/
theorem Account.length_le (h : t.Account n away) : away.length ≤ n := by
  rw [h.count]
  exact Nat.le_add_left ..

theorem Marked.occupied {g : Nat} (hm : t.Marked g) :
    (t.slotAt (groupStart g)).occupied = true := by
  rw [← Nat.add_zero (groupStart g)]
  exact hm 0 (by decide)

/-- No bucket names a group without the group bit. -/
theorem Orderly.not_names_of_not_occupied (h : t.Orderly away) {g : Nat}
    (hfree : (t.slotAt (groupStart g)).occupied = false) : ¬ t.Names g := by
  rintro ⟨i, hi, hname⟩
  exact Bool.false_ne_true (hfree.symm.trans (h.named hi hname).2.occupied)

/-- A group without the group bit is free. -/
theorem Account.free_of_not_occupied (h : t.Account n away) {g : Nat}
    (hfree : (t.slotAt (groupStart g)).occupied = false) : ¬ t.Names g ∧ g ∉ away :=
  ⟨h.orderly.not_names_of_not_occupied hfree, fun hmem =>
    Bool.false_ne_true (hfree.symm.trans (h.kept hmem).2.occupied)⟩

/-! ### Stores inside one group -/

theorem slotAt_apply_group (t : Arrays) (s : Slot) (g : Nat) {j : Nat} (hj : j < 2 ^ 32) :
    (t.apply (.slots (groupStart g) groupSize s)).slotAt j =
      if InGroup g j then s.cut else t.slotAt j :=
  slotAt_store t _ _ s j hj

/-- A store into one group leaves the others alone. -/
theorem slotAt_apply_other (t : Arrays) (s : Slot) {g g' : Nat} (hg' : g' < maxGroups)
    (hne : g' ≠ g) {o : Nat} (ho : o < groupSize) :
    (t.apply (.slots (groupStart g) groupSize s)).slotAt (groupStart g' + o) =
      t.slotAt (groupStart g' + o) := by
  have hin := inGroup_add g' ho
  rw [slotAt_apply_group t s g (hin.lt hg'), if_neg fun h => hne (hin.unique h)]

theorem slotAt_apply_self (t : Arrays) (s : Slot) {g : Nat} (hg : g < maxGroups) {o : Nat}
    (ho : o < groupSize) :
    (t.apply (.slots (groupStart g) groupSize s)).slotAt (groupStart g + o) = s.cut := by
  have hin := inGroup_add g ho
  rw [slotAt_apply_group t s g (hin.lt hg), if_pos hin]

theorem Marked.apply_other {g g' : Nat} (hm : t.Marked g') (hg' : g' < maxGroups) (hne : g' ≠ g)
    (s : Slot) : (t.apply (.slots (groupStart g) groupSize s)).Marked g' := by
  intro o ho
  rw [slotAt_apply_other t s hg' hne ho]
  exact hm o ho

theorem Blank.apply_other {g g' : Nat} (hb : t.Blank g') (hg' : g' < maxGroups) (hne : g' ≠ g)
    (s : Slot) : (t.apply (.slots (groupStart g) groupSize s)).Blank g' := by
  intro o ho
  rw [get_of_slotAt (slotAt_apply_other t s hg' hne ho)]
  exact hb o ho

/-- A store into a group that no bucket names. -/
theorem Orderly.apply_other (h : t.Orderly away) {g : Nat} (hg : ¬ t.Names g) (s : Slot) :
    (t.apply (.slots (groupStart g) groupSize s)).Orderly away := by
  refine ⟨fun {i g'} hi hname => ?_, h.unshared, h.apart⟩
  replace hname : t.entryAt i = .group g' := hname
  obtain ⟨h1, h2⟩ := h.named hi hname
  refine ⟨h1, h2.apply_other (Entry.group_lt hname) ?_ s⟩
  rintro rfl
  exact hg ⟨i, hi, hname⟩

/-- A group goes from the writer's hands back to the free ones. -/
theorem Orderly.free {g : Nat} (h : t.Orderly (g :: away)) :
    (t.apply (.slots (groupStart g) groupSize {})).Orderly away := by
  have hother := h.apply_other (h.apart List.mem_cons_self) {}
  exact ⟨hother.named, hother.unshared, fun hmem => hother.apart (List.mem_cons_of_mem g hmem)⟩

theorem Account.free {g : Nat} (h : t.Account n (g :: away)) :
    (t.apply (.slots (groupStart g) groupSize {})).Account (n - 1) away := by
  obtain ⟨hnot, hnodup⟩ := List.nodup_cons.mp h.nodup
  refine h.orderly.free.account h.groups_le (fun {g'} hmem => ?_) hnodup ?_
  · obtain ⟨h1, h2⟩ := h.kept (List.mem_cons_of_mem g hmem)
    refine ⟨h1, h2.apply_other (h.lt_maxGroups h1) ?_ _⟩
    rintro rfl
    exact hnot hmem
  · have hcount := h.count
    rw [List.length_cons] at hcount
    show n - 1 = t.linkedBuckets.card + away.length
    omega

theorem Clean.free {g : Nat} (h : t.Account n (g :: away)) (hc : t.Clean (g :: away)) :
    (t.apply (.slots (groupStart g) groupSize {})).Clean away := by
  intro g' hlt hname haway
  have hg' := h.lt_maxGroups hlt
  rcases eq_or_ne g' g with rfl | hne
  · intro o ho
    rw [get_eq_zero_iff, slotAt_apply_self t _ hg' ho]
    rfl
  · exact (hc _ hlt hname (List.not_mem_cons_of_ne_of_not_mem hne haway)).apply_other hg' hne _

/-- A free group comes into the writer's hands. -/
theorem Orderly.claim (h : t.Orderly away) {g : Nat}
    (hfree : (t.slotAt (groupStart g)).occupied = false) :
    (t.apply (.slots (groupStart g) groupSize .empty)).Orderly (g :: away) := by
  have hname := h.not_names_of_not_occupied hfree
  have hother := h.apply_other hname .empty
  refine ⟨hother.named, hother.unshared, fun {g'} hmem => ?_⟩
  rcases List.mem_cons.mp hmem with rfl | hmem
  · exact hname
  · exact hother.apart hmem

theorem Account.claim (h : t.Account n away) {g : Nat} (hgt : g < t.groups)
    (hfree : (t.slotAt (groupStart g)).occupied = false) :
    (t.apply (.slots (groupStart g) groupSize .empty)).Account (n + 1) (g :: away) := by
  have haway := (h.free_of_not_occupied hfree).2
  refine (h.orderly.claim hfree).account h.groups_le (fun {g'} hmem => ?_)
    (List.nodup_cons.mpr ⟨haway, h.nodup⟩) ?_
  · rcases List.mem_cons.mp hmem with rfl | hold
    · refine ⟨hgt, fun o ho => ?_⟩
      rw [slotAt_apply_self t _ (h.lt_maxGroups hgt) ho]
      rfl
    · obtain ⟨h1, h2⟩ := h.kept hold
      refine ⟨h1, h2.apply_other (h.lt_maxGroups h1) ?_ _⟩
      rintro rfl
      exact haway hold
  · show n + 1 = t.linkedBuckets.card + (away.length + 1)
    rw [h.count]
    omega

theorem Clean.claim (h : t.Account n away) (hc : t.Clean away) (g : Nat) :
    (t.apply (.slots (groupStart g) groupSize .empty)).Clean (g :: away) := by
  intro g' hlt hname haway
  rw [List.mem_cons, not_or] at haway
  exact (hc _ hlt hname haway.2).apply_other (h.lt_maxGroups hlt) haway.1 _

/-! ### Stores to one bucket -/

theorem entryAt_apply_bucket (t : Arrays) (i : Nat) {k : Nat} (e : Entry) (hk : k < bucketCount) :
    (t.apply (.buckets i 1 e)).entryAt k = if k = i then e.cut else t.entryAt k := by
  rw [entryAt_store t i 1 e k hk]
  refine if_congr ?_ rfl rfl
  omega

/-- A bucket that names a group after a link is the linked one, or it did so before. -/
theorem entryAt_link {g i : Nat} (hg : g < maxGroups) {k g' : Nat} (hk : k < bucketCount) :
    (t.apply (.buckets i 1 (.group g))).entryAt k = .group g' ↔
      (k = i ∧ g' = g) ∨ (k ≠ i ∧ t.entryAt k = .group g') := by
  rw [entryAt_apply_bucket t i _ hk, Entry.cut, Nat.mod_eq_of_lt hg]
  split
  · next heq => simp [heq, eq_comm]
  · next hne => simp [hne]

/-- A bucket that names a group after an unlink is not the unlinked one and did so before. -/
theorem entryAt_unlink {i : Nat} {e : Entry} (he : ∀ g', e.cut ≠ .group g') {k g' : Nat}
    (hk : k < bucketCount) : (t.apply (.buckets i 1 e)).entryAt k = .group g' ↔
      k ≠ i ∧ t.entryAt k = .group g' := by
  rw [entryAt_apply_bucket t i e hk]
  split
  · next heq => simp [heq, he g']
  · next hne => simp [hne]

/-- A group goes from the writer's hands to a bucket. -/
theorem Orderly.link {g i : Nat} (h : t.Orderly (g :: away)) (hg : g < maxGroups)
    (hgt : g < t.groups) (hgm : t.Marked g) (hnot : g ∉ away) :
    (t.apply (.buckets i 1 (.group g))).Orderly away := by
  have hold : ∀ {k}, k < bucketCount → t.entryAt k ≠ .group g :=
    fun hk hname => h.apart List.mem_cons_self ⟨_, hk, hname⟩
  refine ⟨fun {k g'} hk hname => ?_, fun {k l g'} hk hl hname hname' => ?_, fun {g'} hmem => ?_⟩
  · rcases (entryAt_link hg hk).mp hname with ⟨-, rfl⟩ | ⟨-, hname⟩
    · exact ⟨hgt, hgm⟩
    · exact h.named hk hname
  · rcases (entryAt_link hg hk).mp hname with ⟨hki, hgk⟩ | ⟨-, hold_k⟩ <;>
      rcases (entryAt_link hg hl).mp hname' with ⟨hli, hgl⟩ | ⟨-, hold_l⟩
    · rw [hki, hli]
    · exact absurd (hgk ▸ hold_l) (hold hl)
    · exact absurd (hgl ▸ hold_k) (hold hk)
    · exact h.unshared hk hl hold_k hold_l
  · rintro ⟨k, hk, hname⟩
    rcases (entryAt_link hg hk).mp hname with ⟨-, rfl⟩ | ⟨-, hname⟩
    · exact hnot hmem
    · exact h.apart (List.mem_cons_of_mem g hmem) ⟨k, hk, hname⟩

theorem Account.link {g i : Nat} (h : t.Account n (g :: away)) (hi : i < bucketCount)
    (hnone : ∀ g', t.entryAt i ≠ .group g') :
    (t.apply (.buckets i 1 (.group g))).Account n away := by
  obtain ⟨hgt, hgm⟩ := h.kept List.mem_cons_self
  obtain ⟨hnot, hnodup⟩ := List.nodup_cons.mp h.nodup
  have hg := h.lt_maxGroups hgt
  refine (h.orderly.link hg hgt hgm hnot).account h.groups_le
    (fun hmem => h.kept (List.mem_cons_of_mem g hmem)) hnodup ?_
  have hlinked : (t.apply (.buckets i 1 (.group g))).linkedBuckets =
      insert i t.linkedBuckets := by
    ext k
    rw [Finset.mem_insert, mem_linkedBuckets, mem_linkedBuckets]
    constructor
    · intro h'
      obtain ⟨hk, g', hname⟩ := h'
      rcases (entryAt_link hg hk).mp hname with ⟨rfl, -⟩ | ⟨-, hname⟩
      · exact .inl rfl
      · exact .inr ⟨hk, g', hname⟩
    · intro h'
      obtain rfl | ⟨hk, g', hname⟩ := h'
      · exact ⟨hi, g, (entryAt_link hg hi).mpr (.inl ⟨rfl, rfl⟩)⟩
      · refine ⟨hk, g', (entryAt_link hg hk).mpr (.inr ⟨?_, hname⟩)⟩
        intro heq
        subst heq
        exact hnone g' hname
  have hnew : i ∉ t.linkedBuckets := by
    rw [mem_linkedBuckets]
    intro h'
    obtain ⟨-, g', hname⟩ := h'
    exact hnone g' hname
  rw [hlinked, Finset.card_insert_of_notMem hnew, h.count, List.length_cons]
  omega

theorem Clean.link {g i : Nat} (h : t.Account n (g :: away)) (hc : t.Clean (g :: away))
    (hi : i < bucketCount) (hnone : ∀ g', t.entryAt i ≠ .group g') :
    (t.apply (.buckets i 1 (.group g))).Clean away := by
  have hg := h.lt_maxGroups (h.kept List.mem_cons_self).1
  intro g' hlt hname haway
  refine hc _ hlt ?_ (List.not_mem_cons_of_ne_of_not_mem ?_ haway)
  · intro h'
    obtain ⟨k, hk, hk'⟩ := h'
    refine hname ⟨k, hk, (entryAt_link hg hk).mpr (.inr ⟨?_, hk'⟩)⟩
    intro heq
    subst heq
    exact hnone g' hk'
  · intro heq
    subst heq
    exact hname ⟨i, hi, (entryAt_link hg hi).mpr (.inl ⟨rfl, rfl⟩)⟩

/-- A group that its bucket forgets comes into the writer's hands. -/
theorem Orderly.unlink (h : t.Orderly away) {g i : Nat} (hi : i < bucketCount)
    (hname : t.entryAt i = .group g) {e : Entry} (he : ∀ g', e.cut ≠ .group g') :
    (t.apply (.buckets i 1 e)).Orderly (g :: away) := by
  refine ⟨fun hk hname' => h.named hk ((entryAt_unlink he hk).mp hname').2,
    fun hk hl hname' hname'' => h.unshared hk hl ((entryAt_unlink he hk).mp hname').2
      ((entryAt_unlink he hl).mp hname'').2, fun {g'} hmem => ?_⟩
  rintro ⟨k, hk, hname'⟩
  obtain ⟨hne, hold⟩ := (entryAt_unlink he hk).mp hname'
  rcases List.mem_cons.mp hmem with rfl | hmem
  · exact hne (h.unshared hk hi hold hname)
  · exact h.apart hmem ⟨k, hk, hold⟩

theorem Account.unlink {g i : Nat} (h : t.Account n away) (hi : i < bucketCount)
    (hname : t.entryAt i = .group g) {e : Entry} (he : ∀ g', e.cut ≠ .group g') :
    (t.apply (.buckets i 1 e)).Account n (g :: away) := by
  obtain ⟨hgt, hgm, hnot⟩ := h.named hi hname
  refine (h.orderly.unlink hi hname he).account h.groups_le (fun {g'} hmem => ?_)
    (List.nodup_cons.mpr ⟨hnot, h.nodup⟩) ?_
  · rcases List.mem_cons.mp hmem with rfl | hmem
    · exact ⟨hgt, hgm⟩
    · exact h.kept hmem
  · have hlinked : (t.apply (.buckets i 1 e)).linkedBuckets = t.linkedBuckets.erase i := by
      ext k
      rw [Finset.mem_erase, mem_linkedBuckets, mem_linkedBuckets]
      constructor
      · intro h'
        obtain ⟨hk, g', hk'⟩ := h'
        obtain ⟨hne, hk'⟩ := (entryAt_unlink he hk).mp hk'
        exact ⟨hne, hk, g', hk'⟩
      · intro h'
        obtain ⟨hne, hk, g', hk'⟩ := h'
        exact ⟨hk, g', (entryAt_unlink he hk).mpr ⟨hne, hk'⟩⟩
    have hold : i ∈ t.linkedBuckets := (mem_linkedBuckets t i).mpr ⟨hi, g, hname⟩
    have hpos := Finset.card_pos.mpr ⟨i, hold⟩
    rw [hlinked, Finset.card_erase_of_mem hold, h.count, List.length_cons]
    omega

/-- A bucket is the only one that names its group. -/
theorem Account.not_names_unlink (h : t.Account n away) {g i : Nat} (hi : i < bucketCount)
    (hname : t.entryAt i = .group g) {e : Entry} (he : ∀ g', e.cut ≠ .group g') :
    ¬ (t.apply (.buckets i 1 e)).Names g :=
  (h.unlink hi hname he).not_names List.mem_cons_self

theorem Clean.unlink {g i : Nat} (hc : t.Clean away) (hname : t.entryAt i = .group g) {e : Entry}
    (he : ∀ g', e.cut ≠ .group g') : (t.apply (.buckets i 1 e)).Clean (g :: away) := by
  intro g' hlt hname' haway
  rw [List.mem_cons, not_or] at haway
  refine hc _ hlt ?_ haway.2
  intro h
  obtain ⟨k, hk, hk'⟩ := h
  refine hname' ⟨k, hk, (entryAt_unlink he hk).mpr ⟨?_, hk'⟩⟩
  intro heq
  subst heq
  rw [hname] at hk'
  exact haway.1 (Entry.group.inj hk').symm

/-! ### Changes that hand no group on -/

/-- Buckets that name the same groups, and slots that change inside those groups only. -/
structure Within (t t' : Arrays) (mine : Nat → Prop) : Prop where
  groups : t'.groups = t.groups
  entries : ∀ {i g}, i < bucketCount → (t'.entryAt i = .group g ↔ t.entryAt i = .group g)
  marked : ∀ {g}, mine g → t.Marked g → t'.Marked g
  others : ∀ {g}, g < maxGroups → ¬ mine g → ∀ o, o < groupSize →
    t'.slotAt (groupStart g + o) = t.slotAt (groupStart g + o)

variable {t' : Arrays} {mine : Nat → Prop}

theorem Within.names (hw : Within t t' mine) (g : Nat) : t'.Names g ↔ t.Names g :=
  exists_congr fun _ => and_congr_right fun hi => hw.entries hi

theorem Within.linkedBuckets (hw : Within t t' mine) : t'.linkedBuckets = t.linkedBuckets := by
  ext i
  rw [mem_linkedBuckets, mem_linkedBuckets]
  refine and_congr_right fun hi => ?_
  simp only [hw.entries hi]

theorem Within.marked_of_lt (hw : Within t t' mine) {g : Nat} (hg : g < maxGroups)
    (hm : t.Marked g) : t'.Marked g := by
  by_cases hmine : mine g
  · exact hw.marked hmine hm
  · intro o ho
    rw [hw.others hg hmine o ho]
    exact hm o ho

theorem Orderly.within (h : t.Orderly away) (hw : Within t t' mine) : t'.Orderly away := by
  refine ⟨fun {i g} hi hname => ?_, fun hi hj hname hname' =>
    h.unshared hi hj ((hw.entries hi).mp hname) ((hw.entries hj).mp hname'),
    fun hmem => mt (hw.names _).mp (h.apart hmem)⟩
  obtain ⟨h1, h2⟩ := h.named hi ((hw.entries hi).mp hname)
  exact ⟨hw.groups ▸ h1, hw.marked_of_lt (Entry.group_lt hname) h2⟩

theorem Account.within (h : t.Account n away) (hw : Within t t' mine) : t'.Account n away := by
  have hle : t'.groups ≤ maxGroups := by
    rw [hw.groups]
    exact h.groups_le
  refine (h.orderly.within hw).account hle (fun {g} hmem => ?_) h.nodup ?_
  · obtain ⟨h1, h2⟩ := h.kept hmem
    exact ⟨hw.groups ▸ h1, hw.marked_of_lt (h.lt_maxGroups h1) h2⟩
  · rw [hw.linkedBuckets]
    exact h.count

theorem Clean.within (h : t.Account n away) (hc : t.Clean away) (hw : Within t t' mine)
    (hmine : ∀ {g}, mine g → t.Names g ∨ g ∈ away) : t'.Clean away := by
  intro g hlt hname haway
  rw [hw.groups] at hlt
  rw [hw.names] at hname
  have hnot : ¬ mine g := fun hg => (hmine hg).elim hname haway
  intro o ho
  rw [get_of_slotAt (hw.others (h.lt_maxGroups hlt) hnot o ho)]
  exact hc _ hlt hname haway o ho

/-! ### A fresh start -/

/-- The number of the groups that buckets name is the number of those buckets. -/
theorem Account.length_named (h : t.Account n away) {gs : List Nat} (hgs : gs.Nodup)
    (hnames : ∀ g, g ∈ gs ↔ t.Names g) : gs.length = t.linkedBuckets.card := by
  have hex : ∀ i, ∃ g, i ∈ t.linkedBuckets → t.entryAt i = .group g := by
    intro i
    by_cases hi : i ∈ t.linkedBuckets
    · obtain ⟨-, g, hg⟩ := (mem_linkedBuckets t i).mp hi
      exact ⟨g, fun _ => hg⟩
    · exact ⟨0, fun hi' => absurd hi' hi⟩
  obtain ⟨f, hf⟩ := Classical.axiom_of_choice hex
  have himage : t.linkedBuckets.image f = gs.toFinset := by
    ext g
    rw [Finset.mem_image, List.mem_toFinset, hnames]
    constructor
    · intro h'
      obtain ⟨i, hi, rfl⟩ := h'
      exact ⟨i, ((mem_linkedBuckets t i).mp hi).1, hf i hi⟩
    · intro h'
      obtain ⟨i, hi, hname⟩ := h'
      have hmem := (mem_linkedBuckets t i).mpr ⟨hi, g, hname⟩
      refine ⟨i, hmem, Entry.group.inj ?_⟩
      rw [← hf i hmem, hname]
  rw [← List.toFinset_card_of_nodup hgs, ← himage]
  refine Finset.card_image_of_injOn fun i hi j hj hij => ?_
  have hi' := (mem_linkedBuckets t i).mp hi
  have hj' := (mem_linkedBuckets t j).mp hj
  refine h.unshared hi'.1 hj'.1 (hf i hi) ?_
  rw [hf j hj]
  exact congrArg Entry.group hij.symm

instance (t : Arrays) : DecidablePred t.Names := fun g =>
  inferInstanceAs (Decidable (∃ i, i < bucketCount ∧ t.entryAt i = .group g))

/-- The groups that buckets name. -/
def linkedGroups (t : Arrays) : Finset Nat := (Finset.range maxGroups).filter t.Names

theorem mem_linkedGroups (t : Arrays) (g : Nat) : g ∈ t.linkedGroups ↔ t.Names g := by
  rw [linkedGroups, Finset.mem_filter, Finset.mem_range]
  refine ⟨fun h => h.2, fun h => ⟨?_, h⟩⟩
  obtain ⟨i, -, hname⟩ := h
  exact Entry.group_lt hname

theorem Account.card_linkedGroups (h : t.Account n away) :
    t.linkedGroups.card = t.linkedBuckets.card := by
  rw [← Finset.length_toList]
  refine h.length_named (Finset.nodup_toList _) fun g => ?_
  rw [Finset.mem_toList, mem_linkedGroups]

/-- The groups that buckets name, listed once each. -/
theorem exists_named (t : Arrays) : ∃ gs : List Nat, gs.Nodup ∧ ∀ g, g ∈ gs ↔ t.Names g := by
  refine ⟨t.linkedGroups.toList, Finset.nodup_toList _, fun g => ?_⟩
  rw [Finset.mem_toList, mem_linkedGroups]

theorem entryAt_clear (t : Arrays) {i : Nat} (hi : i < bucketCount) :
    (t.apply (.buckets 0 bucketCount .invalid)).entryAt i = .invalid := by
  rw [entryAt_store t _ _ _ i hi, if_pos ⟨Nat.zero_le i, by omega⟩]
  rfl

/-- No bucket names a group once all of them are empty. -/
theorem not_names_clear (t : Arrays) (g : Nat) :
    ¬ (t.apply (.buckets 0 bucketCount .invalid)).Names g := by
  rintro ⟨i, hi, hname⟩
  rw [entryAt_clear t hi] at hname
  cases hname

/-- When the first level is cleared, all groups it named come into the writer's hands. -/
theorem Account.clearBuckets (h : t.Account n away) {gs : List Nat} (hgs : gs.Nodup)
    (hnames : ∀ g, g ∈ gs ↔ t.Names g) :
    (t.apply (.buckets 0 bucketCount .invalid)).Account n (gs ++ away) := by
  refine (orderly_of_not_names (not_names_clear t) _).account h.groups_le (fun {g} hmem => ?_) ?_ ?_
  · rcases List.mem_append.mp hmem with hmem | hmem
    · obtain ⟨i, hi, hname⟩ := (hnames g).mp hmem
      obtain ⟨h1, h2, -⟩ := h.named hi hname
      exact ⟨h1, h2⟩
    · exact h.kept hmem
  · refine List.nodup_append.mpr ⟨hgs, h.nodup, fun g hg g' hg' heq => ?_⟩
    subst heq
    exact h.not_names hg' ((hnames g).mp hg)
  · rw [linkedBuckets_of_not_names (not_names_clear t), Finset.card_empty, List.length_append,
      h.length_named hgs hnames, Nat.zero_add]
    exact h.count

theorem Clean.clearBuckets (hc : t.Clean away) {gs : List Nat} (hnames : ∀ g, g ∈ gs ↔ t.Names g) :
    (t.apply (.buckets 0 bucketCount .invalid)).Clean (gs ++ away) := by
  intro g hlt _ haway
  rw [List.mem_append, not_or, hnames] at haway
  exact hc _ hlt haway.1 haway.2

/-- When the second level is cleared too, all groups are free. -/
theorem Account.clearSlots (h : t.Account n away) (hnone : ∀ g, ¬ t.Names g) (w : Write)
    (hw : (t.apply w).buckets = t.buckets) : (t.apply w).Account 0 [] := by
  have hno : ∀ g, ¬ (t.apply w).Names g := by
    rintro g ⟨i, hi, hname⟩
    rw [entryAt, hw] at hname
    exact hnone g ⟨i, hi, hname⟩
  have hle : (t.apply w).groups ≤ maxGroups := by
    rw [groups_apply]
    exact h.groups_le
  refine (orderly_of_not_names hno []).account hle (fun hmem => absurd hmem List.not_mem_nil)
    List.nodup_nil ?_
  rw [linkedBuckets_of_not_names hno]
  rfl

theorem clean_clearSlots (hle : t.groups ≤ maxGroups) :
    (t.apply (.slots 0 (t.groups * groupSize) {})).Clean [] := by
  intro g hlt _ _ o ho
  rw [groups_apply] at hlt
  have hin := inGroup_add g ho
  rw [get_eq_zero_iff, slotAt_store t _ _ _ _ (hin.lt (Nat.lt_of_lt_of_le hlt hle)), if_pos]
  · rfl
  · have hmul := Nat.mul_le_mul_right groupSize hlt
    simp only [InGroup, groupStart, groupSize, Nat.succ_mul] at hin hmul ⊢
    omega

/-! ### The count -/

/-- The groups in use are those that a bucket names and those kept away. -/
theorem Account.exists_used (h : t.Account n away) : ∃ us : Finset Nat,
    us ⊆ Finset.range t.groups ∧ us.card = n ∧ ∀ g, g ∈ us ↔ t.Names g ∨ g ∈ away := by
  obtain ⟨gs, hgs, hnames⟩ := exists_named t
  have hnodup : (gs ++ away).Nodup := (h.clearBuckets hgs hnames).nodup
  have hmem : ∀ g, g ∈ (gs ++ away).toFinset ↔ t.Names g ∨ g ∈ away := by
    intro g
    rw [List.mem_toFinset, List.mem_append, hnames]
  refine ⟨(gs ++ away).toFinset, fun g hg => ?_, ?_, hmem⟩
  · rw [Finset.mem_range]
    rcases (hmem g).mp hg with ⟨i, hi, hname⟩ | hg
    · exact (h.named hi hname).1
    · exact (h.kept hg).1
  · rw [List.toFinset_card_of_nodup hnodup, List.length_append, h.length_named hgs hnames, h.count]

/-- No more groups are in use than there are. -/
theorem Account.inUse_le (h : t.Account n away) : n ≤ t.groups := by
  obtain ⟨us, hsub, hcard, -⟩ := h.exists_used
  calc n = us.card := hcard.symm
    _ ≤ (Finset.range t.groups).card := Finset.card_le_card hsub
    _ = t.groups := Finset.card_range _

/-- As many groups are in use as there are, when every group is named or kept away. -/
theorem Account.full_iff (h : t.Account n away) :
    n = t.groups ↔ ∀ g, g < t.groups → t.Names g ∨ g ∈ away := by
  obtain ⟨us, hsub, hcard, hmem⟩ := h.exists_used
  constructor
  · intro hfull g hg
    have hall : us = Finset.range t.groups := by
      refine Finset.eq_of_subset_of_card_le hsub ?_
      rw [Finset.card_range, hcard, hfull]
    rw [← hmem, hall, Finset.mem_range]
    exact hg
  · intro hall
    refine Nat.le_antisymm h.inUse_le ?_
    rw [← hcard, ← Finset.card_range t.groups]
    refine Finset.card_le_card fun g hg => ?_
    rw [hmem]
    exact hall g (Finset.mem_range.mp hg)

/-- A group carries the group bit when it is named or kept away. -/
theorem Account.occupied_iff (h : t.Account n away) (hc : t.Clean away) {g : Nat}
    (hg : g < t.groups) :
    (t.slotAt (groupStart g)).occupied = true ↔ t.Names g ∨ g ∈ away := by
  constructor
  · intro hocc
    by_contra hnone
    obtain ⟨hname, haway⟩ := not_or.mp hnone
    have hblank := (get_eq_zero_iff t _).mp (hc g hg hname haway 0 (by decide))
    rw [Nat.add_zero] at hblank
    rw [hblank] at hocc
    cases hocc
  · intro h'
    have hmarked : t.Marked g := by
      rcases h' with ⟨i, hi, hname⟩ | haway
      · exact (h.named hi hname).2.1
      · exact (h.kept haway).2
    exact hmarked.occupied

end Account

end Arrays

end Dir248
