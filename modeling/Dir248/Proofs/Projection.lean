import Dir248.Proofs.Arrays.Answers
import Dir248.Proofs.Groups.Holdings

/-!
# Rules in the arrays: what they answer

Each of the four ways through the arrays is one law about the answers, whatever rules the
arrays hold. A rule that comes answers the addresses it covers unless a deeper route does;
where a rule goes, the addresses that it answered fall to its cover. All other addresses
keep their answers.

* **`Arrays.Claimed`**, **`Arrays.Ceded`** — a rule has come, a rule has gone.
* **`insertShallow_claimed`**, **`removeShallow_ceded`** — rules of depth 1 to 24.
* **`insertDeep_spec`**, **`removeDeep_spec`** — deeper rules, with what happens to groups.
-/

namespace Dir248

namespace Arrays

/-- The first level answers with routes that a bucket can hold. -/
def Shallow (t : Arrays) : Prop :=
  ∀ {i q}, i < bucketCount → t.entryAt i = .leaf q → q.depth ≤ bucketDepth

/-- Whether a bucket goes on in a group. -/
def Deep (t : Arrays) (i : Nat) : Prop := ∃ g, t.entryAt i = .group g

/-- All addresses of a bucket have one answer, which the bucket could give by itself. -/
def Uniform (t : Arrays) (i : Nat) : Prop :=
  ∃ r : Option Route, (∀ q, r = some q → q.depth ≤ bucketDepth) ∧ ∀ a, bucket a = i → t.answer a = r

/-- A rule has come: it answers the addresses it covers, unless a deeper route does. -/
def Claimed (t t' : Arrays) (r : Rule) : Prop :=
  ∀ a, t'.answer a = if r.route.Covers a then r.answer.over (t.answer a) else t.answer a

/-- A rule has gone: its cover answers where it did, and nothing else has changed. -/
structure Ceded (t t' : Arrays) (route : Prefix) (cover : Option Route) : Prop where
  inside : ∀ {a q}, route.Covers a → t.answer a = some q →
    t'.answer a = if route.depth < q.depth then some q else cover
  outside : ∀ {a}, ¬ route.Covers a → t'.answer a = t.answer a

theorem fits_of_leaf {t : Arrays} {i : Nat} {q : Route} (h : t.entryAt i = .leaf q) : q.Fits := by
  unfold entryAt Entry.decode at h
  split at h
  · split at h
    · cases h
    · cases h
      exact ⟨Nat.div_lt_of_lt_mul (UInt32.toNat_lt _), Nat.mod_lt _ (by decide)⟩
  · cases h

theorem fits_of_answer {t : Arrays} {j : Nat} {q : Route} (h : (t.slotAt j).answer = some q) :
    q.Fits := by
  unfold Slot.answer at h
  split at h
  · cases h
    exact ⟨Nat.div_lt_of_lt_mul (UInt32.toNat_lt _), Nat.mod_lt _ (by decide)⟩
  · cases h

end Arrays

namespace Plane

open Arrays Traced

/-- The plane with other arrays. -/
def setArrays (p : Plane) (arrays : Arrays) : Plane := { p with arrays }

variable {p : Plane} {away : List Nat}

/-! ### Rules that a bucket can hold -/

theorem insertShallow_within {r : Rule} (hr : r.route.IsBlock) (hd : r.route.depth ≤ bucketDepth)
    (hf : r.answer.Fits) :
    Within p.arrays (p.insertShallow r).value.arrays p.arrays.Names :=
  within_sweepBuckets (Entry.plain_claim _) (Slot.idem_claim hf)
    (Slot.occupied_step_claim r.answer) (Prefix.bucketRange_fst_le _) (Prefix.bucketRange_le hr hd)

theorem insertShallow_claimed (ho : p.arrays.Orderly away) {r : Rule} (hr : r.route.IsBlock)
    (hd : r.route.depth ≤ bucketDepth) (hf : r.answer.Fits) :
    Claimed p.arrays (p.insertShallow r).value.arrays r := by
  intro a
  have hsweep := answer_sweepBuckets ho (Entry.plain_claim r.answer) (Slot.idem_claim hf)
    (Prefix.bucketRange_fst_le r.route) (Prefix.bucketRange_le hr hd) a
  refine hsweep.trans ?_
  rw [if_congr (Prefix.covers_iff_bucketRange hr hd a).symm rfl rfl]
  by_cases hc : r.route.Covers a
  · rw [if_pos hc, if_pos hc]
    split
    · next g hg => rw [Slot.answer_step_claim hf, answer_of_group hg]
    · next hno => rw [Entry.answer_step_claim hf hno, answer_of_not_group hno]
  · rw [if_neg hc, if_neg hc]

/-- A cover that can take a rule's place. -/
structure Covering (cover : Option Route) (depth : Nat) : Prop where
  fits : ∀ c, cover = some c → c.Fits
  depth_le : ∀ c, cover = some c → c.depth ≤ depth

theorem Covering.idem {cover : Option Route} {depth : Nat} (h : Covering cover depth) :
    Slot.Idem (Slot.cede depth cover) :=
  Slot.idem_cede fun c hc => ⟨h.fits c hc, h.depth_le c hc⟩

theorem removeShallow_within {route : Prefix} (hr : route.IsBlock)
    (hd : route.depth ≤ bucketDepth) {cover : Option Route} (hc : Covering cover route.depth) :
    Within p.arrays (p.removeShallow route cover).value.arrays p.arrays.Names :=
  within_sweepBuckets (Entry.plain_cede _ _) hc.idem (Slot.occupied_step_cede route.depth cover)
    (Prefix.bucketRange_fst_le _) (Prefix.bucketRange_le hr hd)

theorem answer_step_cede {depth : Nat} {cover : Option Route} (hc : Covering cover depth)
    {s : Slot} {q : Route} (hq : s.answer = some q) :
    (Slot.step (Slot.cede depth cover) s).answer = if depth < q.depth then some q else cover := by
  have hroute : s.route = q := by
    unfold Slot.answer at hq
    split at hq <;> cases hq
    rfl
  rw [Slot.answer_step_cede hc.fits, hq, hroute]

theorem removeShallow_ceded (ho : p.arrays.Orderly away) {route : Prefix} (hr : route.IsBlock)
    (hd : route.depth ≤ bucketDepth) {cover : Option Route} (hc : Covering cover route.depth) :
    Ceded p.arrays (p.removeShallow route cover).value.arrays route cover := by
  have hsweep := answer_sweepBuckets ho (Entry.plain_cede route.depth cover) hc.idem
    (Prefix.bucketRange_fst_le route) (Prefix.bucketRange_le hr hd)
  have hrange := Prefix.covers_iff_bucketRange hr hd
  refine ⟨fun {a q} hin hq => ?_, fun {a} hout => ?_⟩
  · refine (hsweep a).trans ((if_pos ((hrange a).mp hin)).trans ?_)
    split
    · next g hg => exact answer_step_cede hc ((answer_of_group hg).symm.trans hq)
    · next hno => exact Entry.answer_step_cede hc.fits ((answer_of_not_group hno).symm.trans hq)
  · exact (hsweep a).trans (if_neg (mt (hrange a).mpr hout))

/-! ### Rules that need a group -/

/-- A fresh group holds nothing. -/
theorem slotAt_claim (p : Plane) {g : Nat} (hg : g < maxGroups) {o : Nat} (ho : o < groupSize) :
    (p.claim g).value.arrays.slotAt (groupStart g + o) = .empty :=
  slotAt_apply_self p.arrays .empty hg ho

theorem slotAt_allocate {p : Plane} {g : Nat} (h : p.allocate.value.answer = .ok g)
    (hg : g < maxGroups) {o : Nat} (ho : o < groupSize) :
    p.allocate.value.state.arrays.slotAt (groupStart g + o) = .empty := by
  simp only [allocate, value_bind] at h ⊢
  generalize p.makeRoom.value = p at h ⊢
  split at h
  · next g' hg' =>
    cases h
    exact slotAt_claim p hg ho
  · cases h

/-- A group that is handed out is one of the table. -/
theorem lt_of_allocate {p : Plane} {g : Nat} (h : p.allocate.value.answer = .ok g) :
    g < p.allocate.value.state.arrays.groups := by
  simp only [allocate, value_bind] at h ⊢
  generalize p.makeRoom.value = p at h ⊢
  split at h
  · next g' hg' =>
    cases h
    exact (freeGroup?_eq_some hg').1
  · cases h

/-- What a group holds before its rule is filled in. -/
def inherited (t : Arrays) (g : Nat) : Entry → Arrays
  | .leaf q => t.apply (.slots (groupStart g) groupSize (.leaf q))
  | _ => t

theorem arrays_linkGroup (p : Plane) (g : Nat) (current : Entry) (r : Rule) :
    (p.linkGroup g current r).value.arrays =
      ((inherited p.arrays g current).apply (.slots (groupStart g + offset r.route.base)
        (span r.route.depth) (.leaf r.answer))).apply
          (.buckets (bucket r.route.base) 1 (.group g)) := by
  cases current <;> rfl

theorem sameReads_inherited {t : Arrays} {g : Nat} (hg : ¬ t.Names g) (current : Entry) :
    SameReads t (inherited t g current) := by
  cases current with
  | leaf q => exact sameReads_apply _ hg (Nat.le_refl _) (Nat.le_refl _)
  | invalid => exact .refl _
  | group g' => exact .refl _

/-- The slots of a fresh group answer as the bucket did. -/
theorem answer_inherited {t : Arrays} {g : Nat} (hg : g < maxGroups) {current : Entry}
    (hno : ∀ g', current ≠ .group g') (hfits : ∀ q, current = .leaf q → q.Fits)
    (hempty : ∀ o, o < groupSize → t.slotAt (groupStart g + o) = .empty) {o : Nat}
    (ho : o < groupSize) :
    ((inherited t g current).slotAt (groupStart g + o)).answer = current.answer := by
  cases current with
  | leaf q =>
    show ((t.apply (.slots (groupStart g) groupSize (.leaf q))).slotAt _).answer = _
    rw [slotAt_apply_self t _ hg ho, Slot.cut_leaf (hfits q rfl)]
    rfl
  | invalid =>
    show (t.slotAt _).answer = _
    rw [hempty o ho]
    rfl
  | group g' => exact absurd rfl (hno g')

theorem linkGroup_claimed (p : Plane) {g : Nat} (hg : g < maxGroups) (hname : ¬ p.arrays.Names g)
    {r : Rule} (hr : r.route.IsBlock) (hd : bucketDepth < r.route.depth) (hf : r.answer.Fits)
    (hempty : ∀ o, o < groupSize → p.arrays.slotAt (groupStart g + o) = .empty)
    (hno : ∀ g', p.arrays.entryAt (bucket r.route.base) ≠ .group g')
    (hshallow : p.arrays.Shallow) : Claimed p.arrays
      (p.linkGroup g (p.arrays.entryAt (bucket r.route.base)) r).value.arrays r := by
  intro a
  generalize hcur : p.arrays.entryAt (bucket r.route.base) = current at hno
  obtain ⟨h1, h2, h3⟩ := slotRange_within hr hd g
  have hin := sameReads_inherited hname current
  have hfill : SameReads (inherited p.arrays g current) ((inherited p.arrays g current).apply
      (.slots (groupStart g + offset r.route.base) (span r.route.depth) (.leaf r.answer))) :=
    sameReads_apply _ (mt (hin.names g).mp hname) h1 h3
  have hlt := bucket_lt r.route.base
  rw [arrays_linkGroup]
  by_cases hb : bucket a = bucket r.route.base
  · have hcovers : r.route.Covers a ↔
        groupStart g + offset r.route.base ≤ groupStart g + offset a ∧
          groupStart g + offset a < groupStart g + offset r.route.base + span r.route.depth :=
      Prefix.covers_iff_slotRange hr hd g hb
    have hslot := inGroup_add g (offset_lt a)
    have hold : p.arrays.answer a = current.answer := by
      rw [answer_of_not_group (hb ▸ hcur ▸ hno), hb, hcur]
    rw [answer_link _ hg hb, slotAt_store _ _ _ _ _ (hslot.lt hg), hold]
    by_cases hc : r.route.Covers a
    · have hrange := hcovers.mp hc
      rw [if_pos hc, if_pos hrange, Slot.cut_leaf hf, Route.over_of_le]
      · rfl
      · intro q hq
        have hleaf : current = .leaf q := by
          cases current <;> cases hq
          rfl
        have := hshallow hlt (hcur.trans hleaf)
        show q.depth ≤ r.route.depth
        omega
    · rw [if_neg hc, if_neg (mt hcovers.mpr hc)]
      refine answer_inherited hg hno (fun q hq => ?_) hempty (offset_lt a)
      exact fits_of_leaf (hcur.trans hq)
  · have hc : ¬ r.route.Covers a := fun hc => hb ((Prefix.covers_iff_offset hr hd a).mp hc).1
    rw [answer_apply_bucket_of_ne _ _ hb, (hin.trans hfill).answer, if_neg hc]

/-- Whether a deeper rule finds its group. -/
theorem insertDeep_of_group {r : Rule} {g : Nat}
    (hg : p.arrays.entryAt (bucket r.route.base) = .group g) :
    (p.insertDeep r).value = ⟨p.setArrays (p.arrays.sweepSlots (r.route.slotRange g).1
      (r.route.slotRange g).2 (Slot.claim r.answer)).value, .ok ()⟩ := by
  unfold insertDeep
  rw [hg]
  rfl

theorem insertDeep_of_not_group {r : Rule}
    (hno : ∀ g, p.arrays.entryAt (bucket r.route.base) ≠ .group g) :
    (p.insertDeep r).value = match p.allocate.value with
      | ⟨s, .ok g⟩ => ⟨(s.linkGroup g (p.arrays.entryAt (bucket r.route.base)) r).value, .ok ()⟩
      | ⟨s, .error e⟩ => ⟨s, .error e⟩ := by
  unfold insertDeep
  split
  · next g hg => exact absurd hg (hno g)
  · rw [value_bind]
    obtain ⟨s, answer⟩ := p.allocate.value
    cases answer <;> rfl

theorem deep_linkGroup (p : Plane) {g : Nat} (hg : g < maxGroups) (current : Entry) (r : Rule)
    {i : Nat} (hi : i < bucketCount) : (p.linkGroup g current r).value.arrays.Deep i ↔
      i = bucket r.route.base ∨ p.arrays.Deep i := by
  have hsame : ∀ k, (inherited p.arrays g current).entryAt k = p.arrays.entryAt k := by
    intro k
    cases current <;> rfl
  unfold Deep
  rw [arrays_linkGroup]
  simp only [entryAt_link hg hi, entryAt_store_slots, hsame]
  constructor
  · intro h
    obtain ⟨g', ⟨heq, -⟩ | ⟨-, hname⟩⟩ := h
    · exact .inl heq
    · exact .inr ⟨g', hname⟩
  · intro h
    obtain heq | ⟨g', hname⟩ := h
    · exact ⟨g, .inl ⟨heq, rfl⟩⟩
    · by_cases heq : i = bucket r.route.base
      · exact ⟨g, .inl ⟨heq, rfl⟩⟩
      · exact ⟨g', .inr ⟨heq, hname⟩⟩

theorem sweepSlots_claimed {t : Arrays} (ho : t.Orderly away) {r : Rule} (hr : r.route.IsBlock)
    (hd : bucketDepth < r.route.depth) (hf : r.answer.Fits) {g : Nat}
    (hg : t.entryAt (bucket r.route.base) = .group g) :
    Claimed t (t.sweepSlots (r.route.slotRange g).1 (r.route.slotRange g).2
      (Slot.claim r.answer)).value r := by
  intro a
  rw [answer_sweepSlots ho hr hd hg a]
  by_cases hc : r.route.Covers a
  · have hb := ((Prefix.covers_iff_offset hr hd a).mp hc).1
    rw [if_pos hc, if_pos hc, Slot.answer_step_claim hf, answer_of_group (hb ▸ hg)]
  · rw [if_neg hc, if_neg hc]

/-- A sweep of slots links and unlinks nothing. -/
theorem deep_sweepSlots {t : Arrays} {lo hi : Nat} {onSlot : Slot → Option Slot} (i : Nat) :
    (t.sweepSlots lo hi onSlot).value.Deep i ↔ t.Deep i := by
  unfold Deep entryAt
  rw [buckets_sweepSlots]

/-- A deeper rule comes in and its bucket goes on in a group, or all answers stay. -/
theorem insertDeep_spec (ho : p.desk.Orderly) (hle : p.arrays.groups ≤ maxGroups)
    (hshallow : p.arrays.Shallow) {r : Rule} (hr : r.route.IsBlock)
    (hd : bucketDepth < r.route.depth) (hf : r.answer.Fits) :
    ((p.insertDeep r).value.answer = .ok () ∧
      Claimed p.arrays (p.insertDeep r).value.state.arrays r ∧
        ∀ {i}, i < bucketCount → ((p.insertDeep r).value.state.arrays.Deep i ↔
          i = bucket r.route.base ∨ p.arrays.Deep i)) ∨
    ∃ e, (p.insertDeep r).value.answer = .error e ∧
      SameReads p.arrays (p.insertDeep r).value.state.arrays := by
  by_cases hgroup : p.arrays.Deep (bucket r.route.base)
  · obtain ⟨g, hg⟩ := hgroup
    rw [insertDeep_of_group hg]
    refine .inl ⟨rfl, sweepSlots_claimed ho hr hd hf hg, fun {i} _ => ?_⟩
    refine (deep_sweepSlots i).trans ⟨.inr, fun h => h.elim (fun heq => ?_) id⟩
    rw [heq]
    exact ⟨g, hg⟩
  · have hno : ∀ g, p.arrays.entryAt (bucket r.route.base) ≠ .group g := not_exists.mp hgroup
    have hmoves := allocate_moves p
    have hreads : SameReads p.arrays p.allocate.value.state.arrays := sameReads_of_chain hmoves ho
    have horderly : Desk.Orderly ⟨p.allocate.value.state, p.allocate.value.state.pool.stranded,
        allotted p.allocate.value.answer⟩ := orderly_of_chain hmoves ho
    have hlt := @lt_of_allocate p
    have hempty := @slotAt_allocate p
    rw [insertDeep_of_not_group hno]
    generalize p.allocate.value = out at hreads horderly hlt hempty ⊢
    obtain ⟨s, answer⟩ := out
    cases answer with
    | error e => exact .inr ⟨e, rfl, hreads⟩
    | ok g =>
      have hmem : g ∈ (Desk.mk s s.pool.stranded [g]).away :=
        Desk.mem_away_of_safe List.mem_cons_self
      have hg : g < maxGroups := Nat.lt_of_lt_of_le (hlt rfl) (hreads.groups ▸ hle)
      have hentry := hreads.entryAt (bucket r.route.base)
      have hshallow' : s.arrays.Shallow := by
        intro i q hi hq
        rw [hreads.entryAt] at hq
        exact hshallow hi hq
      have hclaimed := linkGroup_claimed s hg (horderly.apart hmem) hr hd hf
        (fun o ho => hempty rfl hg ho) (fun g' => by rw [hentry]; exact hno g') hshallow'
      rw [hentry] at hclaimed
      refine .inl ⟨rfl, fun a => ?_, fun {i} hi => ?_⟩
      · exact (hclaimed a).trans (by rw [hreads.answer])
      · refine (deep_linkGroup s hg _ r hi).trans (or_congr_right ?_)
        unfold Deep
        simp only [hreads.entryAt]

/-! ### A deeper rule goes -/

/-- The arrays after a rule's slots have fallen to its cover. -/
def swept (t : Arrays) (route : Prefix) (cover : Option Route) (g : Nat) : Arrays :=
  (t.sweepSlots (route.slotRange g).1 (route.slotRange g).2 (Slot.cede route.depth cover)).value

section Swept

variable {t : Arrays} {route : Prefix} {cover : Option Route} {g : Nat}

theorem entryAt_swept (i : Nat) : (swept t route cover g).entryAt i = t.entryAt i := by
  rw [entryAt, swept, buckets_sweepSlots]
  rfl

theorem swept_within (hr : route.IsBlock) (hd : bucketDepth < route.depth) (hg : g < maxGroups) :
    Within t (swept t route cover g) (· = g) := by
  obtain ⟨h1, h2, h3⟩ := slotRange_within hr hd g
  exact within_sweepSlots h1 h2 h3 hg (Slot.occupied_step_cede route.depth cover)

theorem swept_ceded (ho : t.Orderly away) (hr : route.IsBlock) (hd : bucketDepth < route.depth)
    (hc : Covering cover route.depth) (hg : t.entryAt (bucket route.base) = .group g) :
    Ceded t (swept t route cover g) route cover := by
  have hanswer : ∀ a, (swept t route cover g).answer a = _ := answer_sweepSlots ho hr hd hg
  refine ⟨fun {a q} hin hq => ?_, fun {a} hout => (hanswer a).trans (if_neg hout)⟩
  have hb := ((Prefix.covers_iff_offset hr hd a).mp hin).1
  have hslot := (answer_of_group (hb ▸ hg)).symm.trans hq
  exact (hanswer a).trans ((if_pos hin).trans (answer_step_cede hc hslot))

/-- A group can be folded when the answers in its bucket are alike. -/
theorem foldable_iff {i : Nat} (hi : i < bucketCount) (hg : t.entryAt i = .group g)
    (r : Option Route) : t.Foldable g r ↔
      (∀ q, r = some q → q.depth ≤ bucketDepth) ∧ ∀ a, bucket a = i → t.answer a = r := by
  refine and_congr_right fun _ => ⟨fun h a ha => ?_, fun h o ho => ?_⟩
  · rw [answer_of_group (ha ▸ hg), h _ (offset_lt a)]
  · have hb := bucket_addressAt hi ho
    have hanswer := h (addressAt i o) hb
    rwa [answer_of_group (hb.symm ▸ hg), offset_addressAt hi ho] at hanswer

end Swept

section RemoveDeep

variable {route : Prefix} {cover : Option Route} {g : Nat}
  (hg : p.arrays.entryAt (bucket route.base) = .group g) (meanwhile : Meanwhile)

include hg

theorem removeDeep_keep
    (hfold : foldedEntry ((swept p.arrays route cover g).verdict g) = none) :
    (p.removeDeep route cover meanwhile).value =
      ⟨p.setArrays (swept p.arrays route cover g), .ok ()⟩ := by
  unfold swept at hfold
  unfold removeDeep
  rw [hg]
  simp only [value_bind, hfold]
  rfl

theorem removeDeep_fold {left : Entry}
    (hfold : foldedEntry ((swept p.arrays route cover g).verdict g) = some left) :
    (p.removeDeep route cover meanwhile).value =
      (release (p.setArrays ((swept p.arrays route cover g).apply
        (.buckets (bucket route.base) 1 left))) g meanwhile).value := by
  unfold swept at hfold
  unfold removeDeep
  rw [hg]
  simp only [value_bind, hfold]
  rfl

end RemoveDeep

/-- The desk with a group that was just unlinked. -/
theorem orderly_unlinked (ho : p.desk.Orderly) {i g : Nat} (hi : i < bucketCount)
    (hg : p.arrays.entryAt i = .group g) {e : Entry} (he : ∀ g', e.cut ≠ .group g') :
    Desk.Orderly ⟨p.setArrays (p.arrays.apply (.buckets i 1 e)), g :: p.pool.stranded, []⟩ :=
  (Orderly.unlink ho hi hg he).perm List.perm_middle.symm

theorem accounted_unlinked (ha : p.desk.Accounted) {i g : Nat} (hi : i < bucketCount)
    (hg : p.arrays.entryAt i = .group g) {e : Entry} (he : ∀ g', e.cut ≠ .group g') :
    Desk.Accounted ⟨p.setArrays (p.arrays.apply (.buckets i 1 e)), g :: p.pool.stranded, []⟩ :=
  (Account.unlink ha hi hg he).perm List.perm_middle.symm

/-- Nobody notices when a group that can be folded is, and released. -/
theorem release_folded (ho : p.desk.Orderly) {i g : Nat} (hi : i < bucketCount)
    (hg : p.arrays.entryAt i = .group g) {r : Option Route} (hf : p.arrays.Foldable g r)
    (meanwhile : Meanwhile) :
    (∀ a, (release (p.setArrays (p.arrays.apply (.buckets i 1 (.ofRoute r)))) g
      meanwhile).value.state.arrays.answer a = p.arrays.answer a) ∧
    ∀ {k}, k < bucketCount →
      ((release (p.setArrays (p.arrays.apply (.buckets i 1 (.ofRoute r)))) g
        meanwhile).value.state.arrays.Deep k ↔ p.arrays.Deep k ∧ k ≠ i) := by
  have hfits : ∀ q, r = some q → q.Fits := by
    intro q hq
    have hfirst := hf.2 0 (by decide)
    rw [hq] at hfirst
    exact fits_of_answer hfirst
  have he : ∀ g', (Entry.ofRoute r).cut ≠ .group g' :=
    Entry.cut_ne_group (Entry.ofRoute_ne_group r)
  have hreads : SameReads (p.arrays.apply (.buckets i 1 (.ofRoute r)))
      (release (p.setArrays (p.arrays.apply (.buckets i 1 (.ofRoute r)))) g
        meanwhile).value.state.arrays :=
    sameReads_of_chain (release_moves _ g meanwhile) (orderly_unlinked ho hi hg he)
  refine ⟨fun a => (hreads.answer a).trans (answer_fold hg hf hfits a), fun {k} hk => ?_⟩
  unfold Deep
  simp only [hreads.entryAt, entryAt_unlink he hk]
  rw [and_comm, exists_and_left]

/-- A deeper rule goes, and with it the group that its bucket does not need any more. -/
theorem removeDeep_spec (ho : p.desk.Orderly) {route : Prefix} (hr : route.IsBlock)
    (hd : bucketDepth < route.depth) {cover : Option Route} (hc : Covering cover route.depth)
    (meanwhile : Meanwhile) (hdeep : p.arrays.Deep (bucket route.base)) :
    Ceded p.arrays (p.removeDeep route cover meanwhile).value.state.arrays route cover ∧
      ∀ {i}, i < bucketCount →
        ((p.removeDeep route cover meanwhile).value.state.arrays.Deep i ↔ p.arrays.Deep i ∧
          (i = bucket route.base →
            ¬ (p.removeDeep route cover meanwhile).value.state.arrays.Uniform i)) := by
  obtain ⟨g, hg⟩ := hdeep
  have hlt := Entry.group_lt hg
  have hblt := bucket_lt route.base
  have hceded := swept_ceded ho hr hd hc hg
  have hsweptg : (swept p.arrays route cover g).entryAt (bucket route.base) = .group g :=
    (entryAt_swept _).trans hg
  have hdeep : ∀ i, (swept p.arrays route cover g).Deep i ↔ p.arrays.Deep i := deep_sweepSlots
  cases hfold : foldedEntry ((swept p.arrays route cover g).verdict g) with
  | none =>
    rw [removeDeep_keep hg meanwhile hfold]
    refine ⟨hceded, fun {i} _ => (hdeep i).trans (and_iff_left ?_).symm⟩
    rintro rfl ⟨r, hrd, hra⟩
    have hf := (foldable_iff hblt hsweptg r).mpr ⟨hrd, hra⟩
    rw [(foldedEntry_verdict _ hlt _).mpr ⟨r, rfl, hf⟩] at hfold
    cases hfold
  | some left =>
    obtain ⟨r, rfl, hf⟩ := (foldedEntry_verdict _ hlt left).mp hfold
    have horderly : (p.setArrays (swept p.arrays route cover g)).desk.Orderly :=
      Orderly.within ho (swept_within hr hd hlt)
    obtain ⟨hsame, hgone⟩ := release_folded horderly hblt hsweptg hf meanwhile
    rw [removeDeep_fold hg meanwhile hfold]
    refine ⟨⟨fun hin hq => ?_, fun hout => ?_⟩, fun {i} hi => ?_⟩
    · exact (hsame _).trans (hceded.inside hin hq)
    · exact (hsame _).trans (hceded.outside hout)
    · refine (hgone hi).trans (and_congr (hdeep i) ?_)
      refine ⟨fun hne heq => absurd heq hne, fun h heq => h heq ?_⟩
      subst heq
      obtain ⟨hrd, hra⟩ := (foldable_iff hblt hsweptg r).mp hf
      exact ⟨r, hrd, fun a hb => (hsame a).trans (hra a hb)⟩

end Plane

end Dir248
