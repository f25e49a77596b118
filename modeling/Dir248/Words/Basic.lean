import Dir248.Entry

/-!
# Large arrays of words

An array of `2 ^ h` words as a tree of height `h`: a node stands for equal words over its
whole range or splits it in two halves. A fresh array is one node, a store to a range
touches two paths, and an array of 2 ^ 32 slots costs no more than what was written to it.

* **`get`**, **`fill`** — one word, and a store to every place of a range.
* **`get_fill`** — a store changes exactly the places of its range.
* **`pieces`** — a range as stretches of equal words, in ascending order.
* **`all`** — a test of every word of a range.
-/

namespace Dir248

/-- The `2 ^ h` words of an array. -/
inductive Words : Nat → Type
  | uniform {h : Nat} (w : Word) : Words h
  | fork {h : Nat} (low high : Words h) : Words (h + 1)

/-- A stretch of equal words: where it starts, how long it is, and the word. -/
structure Piece where
  start : Nat
  length : Nat
  word : Word
deriving Repr, DecidableEq, Inhabited

namespace Words

/-- The word at a place. -/
def get : {h : Nat} → Words h → Nat → Word
  | _, uniform w, _ => w
  | h + 1, fork low high, i => if i < 2 ^ h then low.get i else high.get (i - 2 ^ h)

/-- Two halves as one array; equal words on both sides make one node. -/
def pair {h : Nat} : (low high : Words h) → Words (h + 1)
  | uniform v, uniform w => if v = w then uniform v else fork (uniform v) (uniform w)
  | low, high => fork low high

/-- Stores a word at every place from `lo` up to, not including, `hi`. -/
def fill : {h : Nat} → Words h → (lo hi : Nat) → Word → Words h
  | 0, uniform v, lo, hi, w => if lo = 0 ∧ 0 < hi then uniform w else uniform v
  | h + 1, uniform v, lo, hi, w =>
    if hi ≤ lo ∨ 2 ^ (h + 1) ≤ lo then uniform v
    else if lo = 0 ∧ 2 ^ (h + 1) ≤ hi then uniform w
    else pair ((uniform v : Words h).fill lo hi w)
      ((uniform v : Words h).fill (lo - 2 ^ h) (hi - 2 ^ h) w)
  | h + 1, fork low high, lo, hi, w =>
    if hi ≤ lo ∨ 2 ^ (h + 1) ≤ lo then fork low high
    else if lo = 0 ∧ 2 ^ (h + 1) ≤ hi then uniform w
    else pair (low.fill lo hi w) (high.fill (lo - 2 ^ h) (hi - 2 ^ h) w)

@[simp] theorem get_uniform {h : Nat} (w : Word) (i : Nat) : (uniform w : Words h).get i = w := by
  cases h <;> rfl

theorem get_fork {h : Nat} (low high : Words h) (i : Nat) :
    (fork low high).get i = if i < 2 ^ h then low.get i else high.get (i - 2 ^ h) := rfl

theorem get_pair {h : Nat} (low high : Words h) (i : Nat) :
    (pair low high).get i = if i < 2 ^ h then low.get i else high.get (i - 2 ^ h) := by
  unfold pair
  split
  · split
    · next hvw => simp [hvw]
    · exact get_fork ..
  · exact get_fork ..

/-- A store changes exactly the places of its range. -/
theorem get_fill {h : Nat} (t : Words h) (lo hi : Nat) (w : Word) (i : Nat) (hi' : i < 2 ^ h) :
    (t.fill lo hi w).get i = if lo ≤ i ∧ i < hi then w else t.get i := by
  induction h generalizing lo hi i with
  | zero =>
    cases t with
    | uniform v =>
      have : i = 0 := by simpa using hi'
      subst this
      simp only [fill]
      split <;> simp_all
  | succ h ih =>
    have hp : 2 ^ (h + 1) = 2 ^ h + 2 ^ h := by omega
    have key (low high : Words h) :
        (pair (low.fill lo hi w) (high.fill (lo - 2 ^ h) (hi - 2 ^ h) w)).get i =
          if lo ≤ i ∧ i < hi then w else (fork low high).get i := by
      rw [get_pair, get_fork]
      split
      · next hlt => rw [ih low _ _ _ hlt]
      · next hge =>
        rw [ih high _ _ _ (by omega)]
        by_cases hin : lo ≤ i ∧ i < hi
        · rw [if_pos hin, if_pos (by omega)]
        · rw [if_neg hin, if_neg (by omega)]
    cases t with
    | uniform v =>
      simp only [fill]
      split
      · rw [if_neg (by omega)]
      · split
        · rw [if_pos (by omega), get_uniform]
        · rw [key]
          simp [get_fork]
    | fork low high =>
      simp only [fill]
      split
      · rw [if_neg (by omega)]
      · split
        · rw [if_pos (by omega), get_uniform]
        · exact key low high

/-! ### Stretches of equal words -/

/-- The range from `lo` up to `hi` as stretches of equal words in ascending order, placed
as if the array began at `base`. Neighbouring stretches may hold the same word. -/
def pieces : {h : Nat} → Words h → (base lo hi : Nat) → List Piece
  | h, uniform w, base, lo, hi =>
    if min hi (2 ^ h) ≤ lo then [] else [⟨base + lo, min hi (2 ^ h) - lo, w⟩]
  | h + 1, fork low high, base, lo, hi =>
    if hi ≤ lo ∨ 2 ^ (h + 1) ≤ lo then []
    else low.pieces base lo hi ++ high.pieces (base + 2 ^ h) (lo - 2 ^ h) (hi - 2 ^ h)

/-- Whether every word of a range passes a test. -/
def all {h : Nat} (t : Words h) (lo hi : Nat) (test : Word → Bool) : Bool :=
  (t.pieces 0 lo hi).all fun p => test p.word

/-- Joins neighbouring stretches of the same word. -/
def join : List Piece → List Piece
  | [] => []
  | p :: rest =>
    match join rest with
    | [] => [p]
    | q :: more =>
      if p.word = q.word then ⟨p.start, p.length + q.length, p.word⟩ :: more else p :: q :: more

/-- The range from `lo` up to `hi` as the longest possible stretches of equal words. -/
def runs {h : Nat} (t : Words h) (lo hi : Nat) : List Piece := join (t.pieces 0 lo hi)

end Words

end Dir248
