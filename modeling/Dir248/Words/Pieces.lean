import Dir248.Words.Basic

/-!
# Ranges as pieces

* **`Tiles`** — pieces that follow each other through a range and hold its words.
* **`tiles_pieces`**, **`tiles_range`** — the pieces of a range are such pieces.
* **`all_iff`** — a test of a range is a test of each of its words.
-/

namespace Dir248

namespace Words

/-- The pieces follow each other from `lo` up to `hi`, and each holds the words of its
stretch. -/
def Tiles (words : Nat → Word) : (lo hi : Nat) → List Piece → Prop
  | lo, hi, [] => lo = hi
  | lo, hi, p :: rest =>
    p.start = lo ∧ 0 < p.length ∧ (∀ i, lo ≤ i → i < lo + p.length → words i = p.word) ∧
      Tiles words (lo + p.length) hi rest

theorem Tiles.le {words : Nat → Word} {lo hi : Nat} {ps : List Piece}
    (h : Tiles words lo hi ps) : lo ≤ hi := by
  induction ps generalizing lo with
  | nil => exact Nat.le_of_eq h
  | cons p rest ih => exact Nat.le_trans (Nat.le_add_right _ _) (ih h.2.2.2)

/-- Where a piece of a range lies, and what the range holds there. -/
theorem Tiles.mem {words : Nat → Word} {lo hi : Nat} {ps : List Piece}
    (h : Tiles words lo hi ps) {p : Piece} (hp : p ∈ ps) :
    lo ≤ p.start ∧ p.start + p.length ≤ hi ∧
      ∀ i, p.start ≤ i → i < p.start + p.length → words i = p.word := by
  induction ps generalizing lo with
  | nil => cases hp
  | cons q rest ih =>
    obtain ⟨hstart, -, hword, hrest⟩ := h
    have hle := hrest.le
    rcases List.mem_cons.mp hp with rfl | hmem
    · exact ⟨by omega, by omega, fun i h1 h2 => hword i (by omega) (by omega)⟩
    · obtain ⟨h1, h2, h3⟩ := ih hrest hmem
      exact ⟨by omega, h2, h3⟩

theorem Tiles.append {words : Nat → Word} {lo mid hi : Nat} {ps qs : List Piece}
    (hp : Tiles words lo mid ps) (hq : Tiles words mid hi qs) : Tiles words lo hi (ps ++ qs) := by
  induction ps generalizing lo with
  | nil =>
    cases hp
    exact hq
  | cons p rest ih => exact ⟨hp.1, hp.2.1, hp.2.2.1, ih hp.2.2.2⟩

theorem Tiles.congr {words words' : Nat → Word} {lo hi : Nat} {ps : List Piece}
    (h : Tiles words lo hi ps) (heq : ∀ i, lo ≤ i → i < hi → words i = words' i) :
    Tiles words' lo hi ps := by
  induction ps generalizing lo with
  | nil => exact h
  | cons p rest ih =>
    have hle := h.2.2.2.le
    refine ⟨h.1, h.2.1, fun i hl hr => ?_, ih h.2.2.2 fun i hl hr => heq i (by omega) hr⟩
    rw [← heq i hl (by omega)]
    exact h.2.2.1 i hl hr

theorem pieces_empty {h : Nat} (t : Words h) (base lo hi : Nat) (hle : min hi (2 ^ h) ≤ lo) :
    t.pieces base lo hi = [] := by
  cases t with
  | uniform w => simp [pieces, hle]
  | fork low high =>
    rw [pieces, if_pos (by omega)]

/-- The pieces of a range tile it. -/
theorem tiles_pieces {h : Nat} (t : Words h) (base lo hi : Nat) (hlo : lo ≤ min hi (2 ^ h)) :
    Tiles (fun i => t.get (i - base)) (base + lo) (base + min hi (2 ^ h))
      (t.pieces base lo hi) := by
  induction t generalizing base lo hi with
  | @uniform h w =>
    simp only [pieces]
    by_cases hc : min hi (2 ^ h) ≤ lo
    · rw [if_pos hc]
      show base + lo = base + min hi (2 ^ h)
      omega
    · rw [if_neg hc]
      refine ⟨rfl, Nat.sub_pos_of_lt (by omega), fun i _ _ => get_uniform .., ?_⟩
      show base + lo + (min hi (2 ^ h) - lo) = base + min hi (2 ^ h)
      omega
  | @fork h low high ihl ihh =>
    have hp : 2 ^ (h + 1) = 2 ^ h + 2 ^ h := by omega
    rw [pieces]
    split
    · show base + lo = _
      omega
    · have hlow : lo < 2 ^ h → Tiles (fun i => (fork low high).get (i - base)) (base + lo)
          (base + min hi (2 ^ h)) (low.pieces base lo hi) := fun hl =>
        (ihl base lo hi (by omega)).congr fun i h1 h2 => by
          rw [get_fork, if_pos (by omega)]
      have hhigh : 2 ^ h ≤ hi → Tiles (fun i => (fork low high).get (i - base))
          (base + max lo (2 ^ h)) (base + min hi (2 ^ (h + 1)))
          (high.pieces (base + 2 ^ h) (lo - 2 ^ h) (hi - 2 ^ h)) := fun hh => by
        have := ihh (base + 2 ^ h) (lo - 2 ^ h) (hi - 2 ^ h) (by omega)
        rw [show base + 2 ^ h + (lo - 2 ^ h) = base + max lo (2 ^ h) by omega,
          show base + 2 ^ h + min (hi - 2 ^ h) (2 ^ h) = base + min hi (2 ^ (h + 1)) by omega]
          at this
        refine this.congr fun i h1 h2 => ?_
        rw [get_fork, if_neg (by omega)]
        congr 1
        omega
      by_cases hl : lo < 2 ^ h
      · by_cases hh : 2 ^ h ≤ hi
        · have h1 := hlow hl
          have h2 := hhigh hh
          rw [show max lo (2 ^ h) = 2 ^ h by omega] at h2
          rw [show min hi (2 ^ h) = 2 ^ h by omega] at h1
          exact h1.append h2
        · rw [pieces_empty high _ _ _ (by omega), List.append_nil,
            show min hi (2 ^ (h + 1)) = min hi (2 ^ h) by omega]
          exact hlow hl
      · rw [pieces_empty low _ _ _ (by omega), List.nil_append]
        have h2 := hhigh (by omega)
        rwa [show max lo (2 ^ h) = lo by omega] at h2

/-- The pieces of a range inside an array. -/
theorem tiles_range {h : Nat} (t : Words h) {lo hi : Nat} (hlo : lo ≤ hi) (hhi : hi ≤ 2 ^ h) :
    Tiles t.get lo hi (t.pieces 0 lo hi) := by
  have htiles := tiles_pieces t 0 lo hi (by omega)
  rwa [show min hi (2 ^ h) = hi by omega, Nat.zero_add, Nat.zero_add] at htiles

/-- A test of a range is a test of each of its words. -/
theorem all_iff {h : Nat} (t : Words h) (lo hi : Nat) (test : Word → Bool) (hlo : lo ≤ hi)
    (hhi : hi ≤ 2 ^ h) :
    t.all lo hi test = true ↔ ∀ i, lo ≤ i → i < hi → test (t.get i) = true := by
  have key (ps : List Piece) (lo : Nat) (hps : Tiles t.get lo hi ps) :
      (ps.all fun p => test p.word) = true ↔ ∀ i, lo ≤ i → i < hi → test (t.get i) = true := by
    induction ps generalizing lo with
    | nil =>
      cases hps
      simp
      omega
    | cons p rest ih =>
      have hle := hps.2.2.2.le
      rw [List.all_cons, Bool.and_eq_true, ih _ hps.2.2.2]
      constructor
      · rintro ⟨hp, hrest⟩ i h1 h2
        by_cases hi' : i < lo + p.length
        · rw [hps.2.2.1 i h1 hi']
          exact hp
        · exact hrest i (by omega) h2
      · intro hall
        refine ⟨?_, fun i h1 h2 => hall i (by omega) h2⟩
        have hpos := hps.2.1
        rw [← hps.2.2.1 lo (Nat.le_refl _) (by omega)]
        exact hall lo (Nat.le_refl _) (by omega)
  exact key _ lo (tiles_range t hlo hhi)

end Words

end Dir248
