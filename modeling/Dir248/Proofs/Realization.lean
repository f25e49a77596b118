import Dir248.Proofs.Projection

/-!
# Arrays that realize a map of rules

The arrays realize a map when every address is answered by its best route and exactly the
buckets with a deep rule go on in a group. That is all there is to say about them: what the
single entries and slots hold follows from it.

* **`Arrays.Realizes`** — the relation between arrays and map.
* **`Realizes.entryAt_eq`** — the entry of a bucket without deep rules.
* **`Realizes.insertShallow`** to **`Realizes.removeDeep`** — a rule comes, a rule goes.
-/

namespace Dir248

namespace Arrays

/-- Lookups find the best routes, and the buckets with deep rules have groups. -/
structure Realizes (t : Arrays) (m : RuleMap) : Prop where
  answers : ∀ a, t.answer a = m.best a maxDepth
  deep : ∀ {i}, i < bucketCount → (t.Deep i ↔ m.DeepIn i)

variable {t t' : Arrays} {m : RuleMap}

/-! ### What the entries hold -/

theorem Realizes.answer_of_not_deepIn (h : t.Realizes m) {a : Address}
    (hno : ¬ m.DeepIn (bucket a)) : (t.entryAt (bucket a)).answer = m.best a bucketDepth := by
  have hentry := not_exists.mp (mt (h.deep (bucket_lt a)).mp hno)
  rw [← answer_of_not_group hentry, h.answers, RuleMap.best_of_not_deepIn hno]

/-- A bucket without deep rules holds its best route. -/
theorem Realizes.entryAt_eq (h : t.Realizes m) {a : Address} (hno : ¬ m.DeepIn (bucket a)) :
    t.entryAt (bucket a) = .ofRoute (m.best a bucketDepth) := by
  have hentry := not_exists.mp (mt (h.deep (bucket_lt a)).mp hno)
  have hanswer := h.answer_of_not_deepIn hno
  cases he : t.entryAt (bucket a) with
  | group g => exact absurd he (hentry g)
  | invalid =>
    rw [he] at hanswer
    rw [← hanswer]
    rfl
  | leaf q =>
    rw [he] at hanswer
    rw [← hanswer]
    rfl

theorem Realizes.shallow (h : t.Realizes m) : t.Shallow := by
  intro i q hi hq
  have hb := bucket_addressAt hi (o := 0) (by decide)
  have hno : ¬ m.DeepIn (bucket (addressAt i 0)) := by
    rw [hb, ← h.deep hi]
    intro h'
    obtain ⟨g, hg⟩ := h'
    rw [hq] at hg
    cases hg
  have hanswer := h.answer_of_not_deepIn hno
  rw [hb, hq] at hanswer
  exact RuleMap.depth_le_of_best hanswer.symm

theorem Realizes.of_sameReads (h : t.Realizes m) (hs : SameReads t t') : t'.Realizes m := by
  refine ⟨fun a => (hs.answer a).trans (h.answers a), fun {i} hi => ?_⟩
  rw [← h.deep hi]
  unfold Deep
  simp only [hs.entryAt]

/-- Arrays without entries realize the map without rules. -/
theorem realizes_empty (hno : ∀ {i}, i < bucketCount → t.entryAt i = .invalid) :
    t.Realizes fun _ => none := by
  refine ⟨fun a => ?_, fun {i} hi => ⟨?_, ?_⟩⟩
  · rw [answer, hno (bucket_lt a), (RuleMap.best_eq_none_iff ..).mpr fun _ _ _ => rfl]
  · intro h
    obtain ⟨g, hg⟩ := h
    rw [hno hi] at hg
    cases hg
  · intro h
    obtain ⟨p, hop, hp, -⟩ := h
    cases hp

/-! ### A rule comes -/

theorem Realizes.claimed (h : t.Realizes m) {r : Rule} (hr : r.route.IsBlock)
    (hc : Claimed t t' r) (a : Address) :
    t'.answer a = RuleMap.best (Function.update m r.route (some r.nextHop)) a maxDepth := by
  rw [hc a, h.answers]
  by_cases hin : r.route.Covers a
  · rw [if_pos hin, RuleMap.best_update m r.nextHop hin hr.one_le hr.le]
    rfl
  · rw [if_neg hin, RuleMap.best_update_of_not_covers m _ hin]

theorem fits_answer {r : Rule} (hr : r.route.IsBlock) (hh : r.nextHop ≤ maxNextHop) :
    r.answer.Fits := by
  have hle := hr.le
  exact ⟨Nat.lt_of_le_of_lt hle (by decide), Nat.lt_of_le_of_lt hh (by decide)⟩

section Plane

variable {p : Plane} {n : Nat} {away : List Nat}

theorem Realizes.insertShallow (h : p.arrays.Realizes m) (ha : p.arrays.Account n away) {r : Rule}
    (hr : r.route.IsBlock) (hd : r.route.depth ≤ bucketDepth) (hh : r.nextHop ≤ maxNextHop) :
    (p.insertShallow r).value.arrays.Realizes (Function.update m r.route (some r.nextHop)) := by
  have hf := fits_answer hr hh
  refine ⟨h.claimed hr (Plane.insertShallow_claimed ha.orderly hr hd hf), fun {i} hi => ?_⟩
  rw [RuleMap.deepIn_update_shallow m _ hd, ← h.deep hi]
  exact exists_congr fun g => (Plane.insertShallow_within hr hd hf).entries hi

/-- A deeper rule comes in, or the answers stay because there is no group for it. -/
theorem Realizes.insertDeep (h : p.arrays.Realizes m) (ha : p.desk.Accounted) {r : Rule}
    (hr : r.route.IsBlock) (hd : bucketDepth < r.route.depth) (hh : r.nextHop ≤ maxNextHop) :
    ((p.insertDeep r).value.answer = .ok () ∧ (p.insertDeep r).value.state.arrays.Realizes
      (Function.update m r.route (some r.nextHop))) ∨
    ∃ e, (p.insertDeep r).value.answer = .error e ∧
      (p.insertDeep r).value.state.arrays.Realizes m := by
  obtain ⟨hok, hclaimed, hdeep⟩ | ⟨e, herr, hreads⟩ :=
    Plane.insertDeep_spec ha.orderly ha.groups_le h.shallow hr hd (fits_answer hr hh)
  · refine .inl ⟨hok, h.claimed hr hclaimed, fun {i} hi => ?_⟩
    rw [hdeep hi, h.deep hi]
    rcases eq_or_ne (bucket r.route.base) i with rfl | hne
    · exact iff_of_true (.inl rfl) (RuleMap.deepIn_update_deep m _ hd)
    · rw [RuleMap.deepIn_update_of_ne m _ hne]
      exact or_iff_right hne.symm
  · exact .inr ⟨e, herr, h.of_sameReads hreads⟩

/-! ### A rule goes -/

/-- The best of the shallower rules around a prefix can take the place of its rule. -/
theorem covering_best (hv : m.Valid) {p : Prefix} (hp : p.IsBlock) :
    Plane.Covering (m.best p.base (p.depth - 1)) p.depth := by
  have hle := hp.le
  refine ⟨fun c hc => ?_, fun c hc => ?_⟩
  · obtain ⟨-, h2, h3, -⟩ := (RuleMap.best_eq_some_iff ..).mp hc
    have hhop := hv.nextHop h3
    simp only [maxNextHop] at hhop
    exact ⟨by omega, by omega⟩
  · have := RuleMap.depth_le_of_best hc
    omega

theorem Realizes.ceded (h : t.Realizes m) {q : Prefix} (hq : q.IsBlock) {hop : Nat}
    (hm : m q = some hop) (hc : Ceded t t' q (m.best q.base (q.depth - 1))) (a : Address) :
    t'.answer a = RuleMap.best (Function.update m q none) a maxDepth := by
  by_cases hin : q.Covers a
  · have hrule : m (.of a q.depth) = some hop := by
      rw [hin.of_eq]
      exact hm
    obtain ⟨r, hr, hle⟩ := RuleMap.exists_best_of_rule hq.one_le hq.le hrule
    rw [hc.inside hin ((h.answers a).trans hr), RuleMap.best_erase m hin hr hle]
    have hclip : clip q.base (q.depth - 1) = clip a (q.depth - 1) := by
      refine clip_eq_of_le (Nat.sub_le ..) ?_
      exact hq.covers_base.trans hin.symm
    rw [RuleMap.best_of_clip m hclip]
  · rw [hc.outside hin, h.answers, RuleMap.best_update_of_not_covers m _ hin]

theorem Realizes.removeShallow (h : p.arrays.Realizes m) (ha : p.arrays.Account n away)
    (hv : m.Valid) {q : Prefix} (hd : q.depth ≤ bucketDepth) {hop : Nat} (hm : m q = some hop) :
    (p.removeShallow q (m.best q.base (q.depth - 1))).value.arrays.Realizes
      (Function.update m q none) := by
  have hq := hv.isBlock hm
  have hc := covering_best hv hq
  refine ⟨h.ceded hq hm (Plane.removeShallow_ceded ha.orderly hq hd hc), fun {i} hi => ?_⟩
  rw [RuleMap.deepIn_update_shallow m _ hd, ← h.deep hi]
  exact exists_congr fun g => (Plane.removeShallow_within hq hd hc).entries hi

/-- A bucket whose answers are alike holds no deep rule. -/
theorem uniform_iff (hv : m.Valid) (hanswers : ∀ a, t.answer a = m.best a maxDepth) {i : Nat}
    (hi : i < bucketCount) : t.Uniform i ↔ ¬ m.DeepIn i := by
  constructor
  · rintro ⟨r, hrd, hra⟩ hdeep
    obtain ⟨a, q, hb, hbest, hlt⟩ := hdeep.exists_best hv
    have hle := hrd q ((hra a hb).symm.trans ((hanswers a).trans hbest))
    omega
  · intro hno
    refine ⟨m.best (addressAt i 0) bucketDepth, fun q hq => RuleMap.depth_le_of_best hq,
      fun a hb => ?_⟩
    have hzero := bucket_addressAt hi (o := 0) (by decide)
    subst hb
    rw [hanswers, RuleMap.best_of_not_deepIn hno]
    exact RuleMap.best_of_clip m ((bucket_eq_iff ..).mp hzero.symm)

theorem Realizes.removeDeep (h : p.arrays.Realizes m) (ha : p.desk.Accounted) (hv : m.Valid)
    {q : Prefix} (hd : bucketDepth < q.depth) {hop : Nat} (hm : m q = some hop)
    (meanwhile : Meanwhile) :
    (p.removeDeep q (m.best q.base (q.depth - 1)) meanwhile).value.state.arrays.Realizes
      (Function.update m q none) := by
  have hq := hv.isBlock hm
  have hblt := bucket_lt q.base
  have hdeep : p.arrays.Deep (bucket q.base) := (h.deep hblt).mpr ⟨q, hop, hm, hd, rfl⟩
  obtain ⟨hceded, hgroups⟩ :=
    Plane.removeDeep_spec ha.orderly hq hd (covering_best hv hq) meanwhile hdeep
  have hanswers := h.ceded hq hm hceded
  refine ⟨hanswers, fun {i} hi => ?_⟩
  rw [hgroups hi, uniform_iff (hv.erase q) hanswers hi, h.deep hi, not_not]
  rcases eq_or_ne (bucket q.base) i with rfl | hne
  · refine ⟨fun hboth => hboth.2 rfl, fun hin => ⟨⟨q, hop, hm, hd, rfl⟩, fun _ => hin⟩⟩
  · rw [RuleMap.deepIn_update_of_ne m _ hne]
    exact and_iff_left fun heq => absurd heq.symm hne

end Plane

end Arrays

end Dir248
