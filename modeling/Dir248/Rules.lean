import Dir248.Trace

/-!
# The rule store

All rules of a table sit in one flat array of cells. Each depth owns a window of it, and
the windows that hold rules follow each other without gaps, shallowest first. The depth
of a rule is the depth of its window, so a cell keeps a base and a next hop only. To make
room for a rule, every deeper window that holds rules moves its first rule behind its
last; to close the hole a rule leaves, every deeper window moves its last rule in front of
its first.

* **`RuleStore`**, **`RuleStore.window`** — the cells and the windows.
* **`find?`**, **`covering?`**, **`toList`** — the exact rule of a prefix, the deepest
  shallower rule around it, and all rules.
* **`add`**, **`remove`**, **`setNextHop`**, **`clear`** — the changes.
* **`canInsert`**, **`canRemove`** — what the moves of a change rely on.
* **`window_updateWindows`** — what an update of the windows does to the window of a depth.
-/

namespace Dir248

/-- One place of the array: a base and a next hop. -/
structure Cell where
  base : Address := 0
  nextHop : Nat := 0
deriving Repr, DecidableEq, Inhabited

/-- The stretch of the array that holds the rules of one depth. The start of a window
without rules says nothing. -/
structure Window where
  used : Nat := 0
  first : Nat := 0
deriving Repr, DecidableEq, Inhabited

namespace Window

/-- The place behind the last rule of the window. -/
def stop (w : Window) : Nat := w.first + w.used

/-- The places of the window's rules. -/
def places (w : Window) : List Nat := List.range' w.first w.used

theorem mem_places (w : Window) (i : Nat) : i ∈ w.places ↔ w.first ≤ i ∧ i < w.stop := by
  simp [places, stop, List.mem_range'_1]

end Window

/-- The rules of a table, in one array and a window for each depth. -/
structure RuleStore where
  cells : Array Cell
  windows : Vector Window 32
deriving Repr, DecidableEq, Inhabited

/-- What an addition did, and where. -/
inductive Stored where
  | inserted (place : Nat)
  | updated (place previous : Nat)
  | unchanged
deriving Repr, DecidableEq, Inhabited

namespace RuleStore

/-- A store without rules that has room for `capacity` of them. -/
def new (capacity : Nat) : RuleStore :=
  ⟨Array.replicate capacity {}, Vector.replicate 32 {}⟩

/-! ### Reading -/

/-- How many rules the store has room for. -/
def capacity (s : RuleStore) : Nat := s.cells.size

/-- The window of a depth. -/
def window (s : RuleStore) (depth : Nat) : Window := s.windows[depth - 1]?.getD {}

/-- The number of stored rules. -/
def size (s : RuleStore) : Nat := (depths.map fun d => (s.window d).used).sum

/-- Whether no rule is stored. -/
def isEmpty (s : RuleStore) : Bool := s.size == 0

/-- The content of a place, whether or not a rule uses it. -/
def cell (s : RuleStore) (place : Nat) : Cell := s.cells.getD place {}

/-- The place of the rule of exactly this prefix. -/
def find? (s : RuleStore) (p : Prefix) : Option Nat :=
  (s.window p.depth).places.find? fun i => (s.cell i).base == p.base

/-- The deepest rule around `a` that is shallower than `depth`: its place and its depth. -/
def covering? (s : RuleStore) (a : Address) (depth : Nat) : Option (Nat × Nat) :=
  (List.range' 1 (depth - 1)).reverse.findSome? fun d =>
    (s.find? (.of a d)).map fun i => (i, d)

/-- The rules of one depth, in the order of their window. -/
def rulesAt (s : RuleStore) (depth : Nat) : List Rule :=
  (s.window depth).places.map fun i => ⟨⟨(s.cell i).base, depth⟩, (s.cell i).nextHop⟩

/-- All rules, shallowest first. -/
def toList (s : RuleStore) : List Rule := depths.flatMap s.rulesAt

/-! ### Moving rules -/

/-- A rule is copied from one place to another. -/
structure Move where
  source : Nat
  target : Nat
deriving Repr, DecidableEq

/-- The moves that open a place at the end of the window of `depth`: every deeper window
that holds rules moves its first rule behind its last, deepest window first. -/
def openingMoves (s : RuleStore) (depth : Nat) : List Move :=
  ((depths.filter fun d => depth < d ∧ 0 < (s.window d).used).map fun d =>
    ⟨(s.window d).first, (s.window d).stop⟩).reverse

/-- The moves that close the last place of the window of `depth`: every deeper window that
holds rules moves its last rule in front of its first, shallowest window first. -/
def closingMoves (s : RuleStore) (depth : Nat) : List Move :=
  (depths.filter fun d => depth < d ∧ 0 < (s.window d).used).map fun d =>
    ⟨(s.window d).stop - 1, (s.window d).first - 1⟩

/-- Whether a new rule of the given depth finds all its moves and its place inside the array. -/
def canInsert (s : RuleStore) (depth place : Nat) : Bool :=
  decide (place < s.capacity) &&
    (s.openingMoves depth).all fun m => m.source < s.capacity && m.target < s.capacity

/-- Whether the rule at a place of the window of `depth` can go: the place is one of the
window's, and every deeper window that holds rules has a place in front of it. -/
def canRemove (s : RuleStore) (place depth : Nat) : Bool :=
  decide (place ∈ (s.window depth).places ∧ (s.window depth).stop ≤ s.capacity) &&
    (depths.filter fun d => depth < d ∧ 0 < (s.window d).used).all fun d =>
      0 < (s.window d).first && (s.window d).stop ≤ s.capacity

/-- Makes one move. -/
def move (cells : Array Cell) (m : Move) : Array Cell :=
  cells.setIfInBounds m.target (cells.getD m.source {})

/-- Changes the window of every depth. -/
def updateWindows (s : RuleStore) (f : Nat → Window → Window) : Vector Window 32 :=
  s.windows.mapIdx fun i w => f (i + 1) w

theorem window_updateWindows (s : RuleStore) (f : Nat → Window → Window) (cells : Array Cell)
    (depth : Nat) (h : ValidDepth depth) :
    (RuleStore.mk cells (s.updateWindows f)).window depth = f depth (s.window depth) := by
  have hd : depth - 1 < 32 := by
    simp only [ValidDepth, maxDepth] at h
    omega
  have he : depth - 1 + 1 = depth := by
    simp only [ValidDepth, maxDepth] at h
    omega
  simp [window, updateWindows, hd, he]

/-! ### Changes -/

/-- The place a new rule of the given depth takes: behind the rules of its window, or, when
there is none yet, behind the nearest shallower window that holds rules. -/
def placeFor (s : RuleStore) (depth : Nat) : Nat :=
  if 0 < (s.window depth).used then (s.window depth).stop
  else
    match (depths.filter fun d => d < depth ∧ 0 < (s.window d).used).getLast? with
    | some d => (s.window d).stop
    | none => 0

/-- The store with one more rule at the end of its window. -/
def insert (s : RuleStore) (r : Rule) : RuleStore :=
  let depth := r.route.depth
  let place := s.placeFor depth
  { cells := ((s.openingMoves depth).foldl move s.cells).setIfInBounds place
      ⟨r.route.base, r.nextHop⟩
    windows := s.updateWindows fun d w =>
      if d = depth then ⟨w.used + 1, if 0 < w.used then w.first else place⟩
      else if depth < d ∧ 0 < w.used then { w with first := w.first + 1 }
      else w }

/-- Replaces the next hop at a place. -/
def setNextHop (s : RuleStore) (place nextHop : Nat) : RuleStore :=
  { s with cells := s.cells.setIfInBounds place { s.cell place with nextHop } }

/-- Adds a rule whose base is clipped to its depth, or changes the next hop of the rule of
that prefix. A full store takes no new rule and stays as it is. -/
def add (s : RuleStore) (r : Rule) : Traced (Outcome RuleStore (Except Failure Stored)) :=
  match s.find? r.route with
  | some place =>
    let previous := (s.cell place).nextHop
    if previous = r.nextHop then pure ⟨s, .ok .unchanged⟩
    else pure ⟨s.setNextHop place r.nextHop, .ok (.updated place previous)⟩
  | none =>
    if s.capacity ≤ s.size then pure ⟨s, .error .outOfSpace⟩
    else do
      let place := s.placeFor r.route.depth
      Traced.require (s.canInsert r.route.depth place) .ruleMove
      Traced.log (.ruleStored r.route place)
      pure ⟨s.insert r, .ok (.inserted place)⟩

/-- Removes the rule at a place of the window of `depth`: the last rule of the window takes
its place. -/
def remove (s : RuleStore) (place depth : Nat) : RuleStore :=
  { cells := (s.closingMoves depth).foldl move
      (s.cells.setIfInBounds place (s.cell ((s.window depth).stop - 1)))
    windows := s.updateWindows fun d w =>
      if d = depth then { w with used := w.used - 1 }
      else if depth < d ∧ 0 < w.used then { w with first := w.first - 1 }
      else w }

/-- The store of the same capacity without rules. -/
def clear (s : RuleStore) : RuleStore := new s.capacity

@[simp] theorem capacity_new (capacity : Nat) : (new capacity).capacity = capacity := by
  simp [new, RuleStore.capacity]

@[simp] theorem capacity_clear (s : RuleStore) : s.clear.capacity = s.capacity := by
  simp [clear]

end RuleStore

end Dir248
