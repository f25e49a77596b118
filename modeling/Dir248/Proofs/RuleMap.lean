import Dir248.Proofs.Prefixes
import Mathlib.Logic.Function.Basic

/-!
# Rules as a map

What a table should answer is said by a map from prefixes to next hops. The best route of
an address is that of the deepest prefix around it, found by a recursion on the depth, so
that what a change of the map does to it is an induction on the depth too.

* **`Route.over`** — who answers where a rule comes.
* **`RuleMap.best`** — the deepest rule around an address, up to some depth.
* **`best_eq_some_iff`**, **`best_eq_none_iff`** — what that means.
* **`best_update`**, **`best_erase`** — one more rule, one rule less.
* **`RuleMap.DeepIn`** — a bucket holds a rule that is deeper than a bucket.
-/

namespace Dir248

/-- The route that answers where a rule comes, given the route that answered there. -/
def Route.over (r : Route) : Option Route → Option Route
  | some q => if q.depth ≤ r.depth then some r else some q
  | none => some r

theorem Route.over_of_le {r : Route} {old : Option Route}
    (h : ∀ q, old = some q → q.depth ≤ r.depth) : r.over old = some r := by
  cases old with
  | none => rfl
  | some q => exact if_pos (h q rfl)

/-- For each prefix the next hop of its rule, if there is one. -/
abbrev RuleMap := Prefix → Option Nat

namespace RuleMap

/-- The rules stand for blocks of addresses and their next hops fit a slot. -/
structure Valid (m : RuleMap) : Prop where
  isBlock : ∀ {p hop}, m p = some hop → p.IsBlock
  nextHop : ∀ {p hop}, m p = some hop → hop ≤ maxNextHop

theorem valid_empty : Valid fun _ => none := ⟨nofun, nofun⟩

theorem Valid.update {m : RuleMap} (h : m.Valid) {p : Prefix} (hp : p.IsBlock) {hop : Nat}
    (hh : hop ≤ maxNextHop) : Valid (Function.update m p (some hop)) := by
  have hval : ∀ {q x}, Function.update m p (some hop) q = some x →
      (q = p ∧ x = hop) ∨ m q = some x := by
    intro q x hq
    rcases eq_or_ne q p with rfl | hne
    · rw [Function.update_self] at hq
      exact .inl ⟨rfl, (Option.some.inj hq).symm⟩
    · rw [Function.update_of_ne hne] at hq
      exact .inr hq
  refine ⟨fun hq => ?_, fun hq => ?_⟩
  · obtain ⟨rfl, -⟩ | hq := hval hq
    · exact hp
    · exact h.isBlock hq
  · obtain ⟨-, rfl⟩ | hq := hval hq
    · exact hh
    · exact h.nextHop hq

theorem Valid.erase {m : RuleMap} (h : m.Valid) (p : Prefix) :
    Valid (Function.update m p none) := by
  have hval : ∀ {q x}, Function.update m p none q = some x → m q = some x := by
    intro q x hq
    rcases eq_or_ne q p with rfl | hne
    · rw [Function.update_self] at hq
      cases hq
    · rwa [Function.update_of_ne hne] at hq
  exact ⟨fun hq => h.isBlock (hval hq), fun hq => h.nextHop (hval hq)⟩

/-! ### The best route of an address -/

/-- The route of the deepest rule around an address among those of depth 1 to `limit`. -/
def best (m : RuleMap) (a : Address) : (limit : Nat) → Option Route
  | 0 => none
  | d + 1 =>
    match m (.of a (d + 1)) with
    | some hop => some ⟨d + 1, hop⟩
    | none => m.best a d

theorem best_succ_some {m : RuleMap} {a : Address} {d hop : Nat}
    (h : m (.of a (d + 1)) = some hop) : m.best a (d + 1) = some ⟨d + 1, hop⟩ := by
  rw [best, h]

theorem best_succ_none {m : RuleMap} {a : Address} {d : Nat}
    (h : m (.of a (d + 1)) = none) : m.best a (d + 1) = m.best a d := by
  rw [best, h]

theorem best_eq_none_iff (m : RuleMap) (a : Address) (limit : Nat) :
    m.best a limit = none ↔ ∀ d, 1 ≤ d → d ≤ limit → m (.of a d) = none := by
  induction limit with
  | zero =>
    refine ⟨fun _ d h1 h2 => ?_, fun _ => rfl⟩
    omega
  | succ n ih =>
    cases hm : m (.of a (n + 1)) with
    | some hop =>
      rw [best_succ_some hm]
      refine ⟨nofun, fun h => ?_⟩
      rw [h (n + 1) (by omega) (Nat.le_refl _)] at hm
      cases hm
    | none =>
      rw [best_succ_none hm, ih]
      refine ⟨fun h d h1 h2 => ?_, fun h d h1 h2 => h d h1 (by omega)⟩
      rcases Nat.lt_or_eq_of_le h2 with hlt | rfl
      · exact h d h1 (by omega)
      · exact hm

/-- The best route is a rule around the address, and no deeper one is. -/
theorem best_eq_some_iff (m : RuleMap) (a : Address) (limit : Nat) (r : Route) :
    m.best a limit = some r ↔ 1 ≤ r.depth ∧ r.depth ≤ limit ∧
      m (.of a r.depth) = some r.nextHop ∧ ∀ d, r.depth < d → d ≤ limit → m (.of a d) = none := by
  induction limit with
  | zero =>
    refine ⟨nofun, fun ⟨h1, h2, _⟩ => ?_⟩
    omega
  | succ n ih =>
    cases hm : m (.of a (n + 1)) with
    | some hop =>
      rw [best_succ_some hm]
      constructor
      · intro h
        cases h
        exact ⟨by simp, Nat.le_refl _, hm, fun d h1 h2 => absurd h2 (by simp at h1; omega)⟩
      · intro h'
        obtain ⟨h1, h2, h3, h4⟩ := h'
        have hd : r.depth = n + 1 := by
          by_contra hne
          rw [h4 (n + 1) (by omega) (Nat.le_refl _)] at hm
          cases hm
        rw [hd, hm] at h3
        cases r
        cases hd
        cases h3
        rfl
    | none =>
      rw [best_succ_none hm, ih]
      constructor
      · intro h'
        obtain ⟨h1, h2, h3, h4⟩ := h'
        refine ⟨h1, by omega, h3, fun d hd1 hd2 => ?_⟩
        rcases Nat.lt_or_eq_of_le hd2 with hlt | rfl
        · exact h4 d hd1 (by omega)
        · exact hm
      · intro h'
        obtain ⟨h1, h2, h3, h4⟩ := h'
        have hd : r.depth ≠ n + 1 := by
          intro hd
          rw [hd, hm] at h3
          cases h3
        exact ⟨h1, by omega, h3, fun d hd1 hd2 => h4 d hd1 (by omega)⟩

/-- The best route depends on the rules around the address only. -/
theorem best_congr {m m' : RuleMap} {a b : Address} {limit : Nat}
    (h : ∀ d, 1 ≤ d → d ≤ limit → m (.of a d) = m' (.of b d)) :
    m.best a limit = m'.best b limit := by
  induction limit with
  | zero => rfl
  | succ n ih =>
    rw [best, best, h (n + 1) (by omega) (Nat.le_refl _), ih fun d h1 h2 => h d h1 (by omega)]

/-- Addresses of one block have the same best route up to the depth of the block. -/
theorem best_of_clip (m : RuleMap) {a b : Address} {limit : Nat} (h : clip a limit = clip b limit) :
    m.best a limit = m.best b limit :=
  best_congr fun d _ hd => by rw [Prefix.of_eq_of_le hd h]

/-- Depths without a rule around the address may be left out. -/
theorem best_of_none_above {m : RuleMap} {a : Address} {low high : Nat} (hle : low ≤ high)
    (h : ∀ d, low < d → d ≤ high → m (.of a d) = none) : m.best a high = m.best a low := by
  induction high with
  | zero =>
    cases Nat.le_zero.mp hle
    rfl
  | succ n ih =>
    rcases Nat.lt_or_eq_of_le hle with hlt | rfl
    · rw [best_succ_none (h (n + 1) (by omega) (Nat.le_refl _)),
        ih (by omega) fun d h1 h2 => h d h1 (by omega)]
    · rfl

theorem depth_le_of_best {m : RuleMap} {a : Address} {limit : Nat} {r : Route}
    (h : m.best a limit = some r) : r.depth ≤ limit :=
  ((best_eq_some_iff ..).mp h).2.1

/-- A rule around an address is no deeper than the best one. -/
theorem exists_best_of_rule {m : RuleMap} {a : Address} {limit d hop : Nat} (h1 : 1 ≤ d)
    (h2 : d ≤ limit) (h : m (.of a d) = some hop) :
    ∃ r, m.best a limit = some r ∧ d ≤ r.depth := by
  cases hb : m.best a limit with
  | none =>
    rw [(best_eq_none_iff ..).mp hb d h1 h2] at h
    cases h
  | some r =>
    refine ⟨r, rfl, ?_⟩
    by_contra hlt
    rw [((best_eq_some_iff ..).mp hb).2.2.2 d (by omega) h2] at h
    cases h

theorem Valid.eq_none_of_gt {m : RuleMap} (h : m.Valid) {p : Prefix} (hp : maxDepth < p.depth) :
    m p = none := by
  cases hm : m p with
  | none => rfl
  | some hop =>
    have hle := (h.isBlock hm).le
    simp only [maxDepth] at hp
    omega

/-- The best route up to the full depth is the rule that no deeper one covers. -/
theorem Valid.best_iff {m : RuleMap} (h : m.Valid) (a : Address) (hop : Nat) :
    (m.best a maxDepth).map Route.nextHop = some hop ↔
      ∃ d, m (.of a d) = some hop ∧ ∀ e, d < e → m (.of a e) = none := by
  rw [Option.map_eq_some_iff]
  constructor
  · intro h'
    obtain ⟨r, hr, rfl⟩ := h'
    obtain ⟨-, -, h3, h4⟩ := (best_eq_some_iff ..).mp hr
    refine ⟨r.depth, h3, fun e he => ?_⟩
    rcases Nat.lt_or_ge maxDepth e with hgt | hle
    · exact h.eq_none_of_gt hgt
    · exact h4 e he hle
  · intro h'
    obtain ⟨d, hd, hdeepest⟩ := h'
    have hblock := h.isBlock hd
    exact ⟨⟨d, hop⟩, (best_eq_some_iff ..).mpr
      ⟨hblock.one_le, hblock.le, hd, fun e he _ => hdeepest e he⟩, rfl⟩

theorem Valid.best_none_iff {m : RuleMap} (h : m.Valid) (a : Address) :
    (m.best a maxDepth).map Route.nextHop = none ↔ ∀ d, m (.of a d) = none := by
  rw [Option.map_eq_none_iff, best_eq_none_iff]
  refine ⟨fun hnone d => ?_, fun hnone d _ _ => hnone d⟩
  cases hm : m (.of a d) with
  | none => rfl
  | some hop =>
    have hblock := h.isBlock hm
    rw [hnone d hblock.one_le hblock.le] at hm
    cases hm

/-! ### Changes of the map -/

theorem update_of_not_covers {m : RuleMap} {p : Prefix} {a : Address} (x : Option Nat)
    (h : ¬ p.Covers a) (d : Nat) : Function.update m p x (.of a d) = m (.of a d) := by
  refine Function.update_of_ne ?_ _ _
  intro heq
  subst heq
  exact h (Prefix.covers_of a d)

theorem update_of_depth_ne {m : RuleMap} {p : Prefix} {a : Address} (x : Option Nat) {d : Nat}
    (h : d ≠ p.depth) : Function.update m p x (.of a d) = m (.of a d) := by
  refine Function.update_of_ne ?_ _ _
  intro heq
  subst heq
  exact h rfl

/-- Addresses outside the prefix do not notice a change of its rule. -/
theorem best_update_of_not_covers (m : RuleMap) {p : Prefix} {a : Address} (x : Option Nat)
    (h : ¬ p.Covers a) (limit : Nat) : best (Function.update m p x) a limit = m.best a limit :=
  best_congr fun d _ _ => update_of_not_covers x h d

/-- Depths below the prefix do not notice a change of its rule. -/
theorem best_update_of_lt (m : RuleMap) {p : Prefix} (a : Address) (x : Option Nat) {limit : Nat}
    (h : limit < p.depth) : best (Function.update m p x) a limit = m.best a limit :=
  best_congr fun d _ hd => update_of_depth_ne x (by omega)

/-- A new rule answers where it covers, unless a deeper one does. -/
theorem best_update (m : RuleMap) {p : Prefix} {a : Address} (hop : Nat) (hc : p.Covers a)
    (h1 : 1 ≤ p.depth) {limit : Nat} (h2 : p.depth ≤ limit) :
    best (Function.update m p (some hop)) a limit = Route.over ⟨p.depth, hop⟩ (m.best a limit) := by
  have hat : Function.update m p (some hop) (.of a p.depth) = some hop := by
    rw [hc.of_eq, Function.update_self]
  have hrest : ∀ d, d ≠ p.depth → Function.update m p (some hop) (.of a d) = m (.of a d) :=
    fun d hd => update_of_depth_ne _ hd
  -- where no deeper rule covers the address, the new one is the deepest
  have hnew : (∀ d, p.depth < d → d ≤ limit → m (.of a d) = none) →
      best (Function.update m p (some hop)) a limit = some ⟨p.depth, hop⟩ := by
    intro hnone
    refine (best_eq_some_iff ..).mpr ⟨h1, h2, hat, fun d hd1 hd2 => ?_⟩
    rw [hrest d (Nat.ne_of_gt hd1)]
    exact hnone d hd1 hd2
  cases hb : m.best a limit with
  | none =>
    rw [best_eq_none_iff] at hb
    exact hnew fun d hd1 hd2 => hb d (by omega) hd2
  | some q =>
    obtain ⟨hq1, hq2, hq3, hq4⟩ := (best_eq_some_iff ..).mp hb
    unfold Route.over
    dsimp only
    split
    · next hle => exact hnew fun d hd1 hd2 => hq4 d (by omega) hd2
    · next hgt =>
      refine (best_eq_some_iff ..).mpr ⟨hq1, hq2, ?_, fun d hd1 hd2 => ?_⟩
      · rw [hrest _ (by omega), hq3]
      · rw [hrest _ (by omega), hq4 d hd1 hd2]

/-- Where a rule goes that covers the address, deeper rules go on answering, and otherwise
the best of the shallower ones takes over. -/
theorem best_erase (m : RuleMap) {p : Prefix} {a : Address} (hc : p.Covers a)
    {limit : Nat} {q : Route}
    (hq : m.best a limit = some q) (hle : p.depth ≤ q.depth) :
    best (Function.update m p none) a limit =
      if p.depth < q.depth then some q else m.best a (p.depth - 1) := by
  obtain ⟨hq1, hq2, hq3, hq4⟩ := (best_eq_some_iff ..).mp hq
  have hrest : ∀ d, d ≠ p.depth → Function.update m p none (.of a d) = m (.of a d) :=
    fun d hd => update_of_depth_ne _ hd
  split
  · next hlt =>
    refine (best_eq_some_iff ..).mpr ⟨hq1, hq2, ?_, fun d hd1 hd2 => ?_⟩
    · rw [hrest _ (by omega), hq3]
    · rw [hrest _ (by omega), hq4 d hd1 hd2]
  · next hge =>
    rw [best_of_none_above (show p.depth - 1 ≤ limit by omega),
      best_update_of_lt _ _ _ (by omega)]
    intro d hd1 hd2
    rcases eq_or_ne d p.depth with rfl | hne
    · rw [hc.of_eq, Function.update_self]
    · rw [hrest d hne]
      exact hq4 d (by omega) hd2

/-! ### Buckets with deep rules -/

/-- A rule deeper than a bucket lies in the bucket. -/
def DeepIn (m : RuleMap) (i : Nat) : Prop :=
  ∃ p hop, m p = some hop ∧ bucketDepth < p.depth ∧ bucket p.base = i

/-- Where no deep rule lies, the deep depths may be left out. -/
theorem best_of_not_deepIn {m : RuleMap} {a : Address} (h : ¬ m.DeepIn (bucket a)) :
    m.best a maxDepth = m.best a bucketDepth := by
  refine best_of_none_above (by decide) fun d hd _ => ?_
  cases hm : m (.of a d) with
  | none => rfl
  | some hop => exact absurd ⟨_, hop, hm, hd, bucket_clip a (Nat.le_of_lt hd)⟩ h

/-- In a bucket with a deep rule some address has a deep route. -/
theorem DeepIn.exists_best {m : RuleMap} (hv : m.Valid) {i : Nat} (h : m.DeepIn i) :
    ∃ a r, bucket a = i ∧ m.best a maxDepth = some r ∧ bucketDepth < r.depth := by
  obtain ⟨p, hop, hm, hd, hb⟩ := h
  have hp := hv.isBlock hm
  have hof : m (.of p.base p.depth) = some hop := by
    rw [hp.covers_base.of_eq]
    exact hm
  obtain ⟨r, hr, hle⟩ := exists_best_of_rule hp.one_le hp.le hof
  exact ⟨p.base, r, hb, hr, Nat.lt_of_lt_of_le hd hle⟩

/-- A rule that a bucket can hold makes no bucket deep or shallow. -/
theorem deepIn_update_shallow (m : RuleMap) {p : Prefix} (x : Option Nat)
    (hd : p.depth ≤ bucketDepth) (i : Nat) : DeepIn (Function.update m p x) i ↔ m.DeepIn i := by
  have hsame : ∀ q : Prefix, bucketDepth < q.depth → Function.update m p x q = m q := by
    intro q hq
    refine Function.update_of_ne ?_ _ _
    intro heq
    subst heq
    omega
  constructor
  · intro h
    obtain ⟨q, hop, hm, hq, hb⟩ := h
    exact ⟨q, hop, by rwa [hsame q hq] at hm, hq, hb⟩
  · intro h
    obtain ⟨q, hop, hm, hq, hb⟩ := h
    exact ⟨q, hop, by rwa [hsame q hq], hq, hb⟩

/-- A rule leaves the other buckets as they are. -/
theorem deepIn_update_of_ne (m : RuleMap) {p : Prefix} (x : Option Nat) {i : Nat}
    (hi : bucket p.base ≠ i) : DeepIn (Function.update m p x) i ↔ m.DeepIn i := by
  have hsame : ∀ q : Prefix, bucket q.base = i → Function.update m p x q = m q := by
    intro q hq
    refine Function.update_of_ne ?_ _ _
    intro heq
    subst heq
    exact hi hq
  constructor
  · intro h
    obtain ⟨q, hop, hm, hq, hb⟩ := h
    exact ⟨q, hop, by rwa [hsame q hb] at hm, hq, hb⟩
  · intro h
    obtain ⟨q, hop, hm, hq, hb⟩ := h
    exact ⟨q, hop, by rwa [hsame q hb], hq, hb⟩

theorem deepIn_update_deep (m : RuleMap) {p : Prefix} (hop : Nat) (hd : bucketDepth < p.depth) :
    DeepIn (Function.update m p (some hop)) (bucket p.base) :=
  ⟨p, hop, Function.update_self .., hd, rfl⟩

end RuleMap

end Dir248
