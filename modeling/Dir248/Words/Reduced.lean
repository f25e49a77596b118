import Dir248.Words.Basic

/-!
# Arrays in their shortest form

An array of words can be written as more than one tree. A fresh array is one node, and
stores join equal halves, so the trees that occur never split a range of equal words.

* **`Reduced`** — no node splits a range of equal words.
* **`reduced_fill`** — stores keep an array so.
* **`Reduced.ext`** — two such arrays that hold the same words are equal.
-/

namespace Dir248

namespace Words

/-- No node of the tree splits a range of equal words. -/
inductive Reduced : {h : Nat} → Words h → Prop
  | uniform {h : Nat} (w : Word) : Reduced (uniform w : Words h)
  | fork {h : Nat} {low high : Words h} (hl : Reduced low) (hh : Reduced high)
      (hne : ∀ w, low = .uniform w → high ≠ .uniform w) : Reduced (fork low high)

theorem reduced_pair {h : Nat} {low high : Words h} (hl : Reduced low) (hh : Reduced high) :
    Reduced (pair low high) := by
  unfold pair
  split
  · next v w =>
    split
    · exact .uniform v
    · next hvw =>
      refine .fork hl hh fun u hu => ?_
      cases hu
      intro hw
      cases hw
      exact hvw rfl
  · next hno =>
    refine .fork hl hh fun w hl' hh' => ?_
    exact hno w w hl' hh'

/-- Stores keep an array in its shortest form. -/
theorem reduced_fill {h : Nat} {t : Words h} (ht : Reduced t) (lo hi : Nat) (w : Word) :
    Reduced (t.fill lo hi w) := by
  induction h generalizing lo hi with
  | zero =>
    cases t with
    | uniform v =>
      simp only [fill]
      split <;> exact .uniform _
  | succ h ih =>
    cases t with
    | uniform v =>
      simp only [fill]
      split
      · exact .uniform v
      · split
        · exact .uniform w
        · exact reduced_pair (ih (.uniform v) _ _) (ih (.uniform v) _ _)
    | fork low high =>
      cases ht with
      | fork hl hh hne =>
        simp only [fill]
        split
        · exact .fork hl hh hne
        · split
          · exact .uniform w
          · exact reduced_pair (ih hl _ _) (ih hh _ _)

/-- Two arrays in their shortest form that hold the same words are equal. -/
theorem Reduced.ext {h : Nat} {s t : Words h} (hs : Reduced s) (ht : Reduced t)
    (heq : ∀ i, i < 2 ^ h → s.get i = t.get i) : s = t := by
  induction h with
  | zero =>
    cases s with
    | uniform v =>
      cases t with
      | uniform w => simpa using heq 0 (by decide)
  | succ h ih =>
    have hp : 2 ^ (h + 1) = 2 ^ h + 2 ^ h := by omega
    have halves (low high : Words h) (w : Word) (hl : Reduced low) (hh : Reduced high)
        (hall : ∀ i, i < 2 ^ (h + 1) → (Words.fork low high).get i = w) :
        low = .uniform w ∧ high = .uniform w := by
      refine ⟨ih hl (.uniform w) fun i hi => ?_, ih hh (.uniform w) fun i hi => ?_⟩
      · have := hall i (by omega)
        rw [get_fork, if_pos hi] at this
        rw [this, get_uniform]
      · have := hall (i + 2 ^ h) (by omega)
        rw [get_fork, if_neg (by omega), Nat.add_sub_cancel] at this
        rw [this, get_uniform]
    cases s with
    | uniform v =>
      cases t with
      | uniform w =>
        have := heq 0 (Nat.two_pow_pos _)
        rw [get_uniform, get_uniform] at this
        rw [this]
      | fork low high =>
        cases ht with
        | fork hl hh hne =>
          have hb := halves low high v hl hh fun i hi => by rw [← heq i hi, get_uniform]
          exact absurd hb.2 (hne v hb.1)
    | fork low high =>
      cases hs with
      | fork hl hh hne =>
        cases t with
        | uniform w =>
          have hb := halves low high w hl hh fun i hi => by rw [heq i hi, get_uniform]
          exact absurd hb.2 (hne w hb.1)
        | fork low' high' =>
          cases ht with
          | fork hl' hh' _ =>
            have hlow : low = low' := ih hl hl' fun i hi => by
              have := heq i (by omega)
              rwa [get_fork, get_fork, if_pos hi, if_pos hi] at this
            have hhigh : high = high' := ih hh hh' fun i hi => by
              have := heq (i + 2 ^ h) (by omega)
              rwa [get_fork, get_fork, if_neg (by omega), if_neg (by omega),
                Nat.add_sub_cancel] at this
            rw [hlow, hhigh]

end Words

end Dir248
