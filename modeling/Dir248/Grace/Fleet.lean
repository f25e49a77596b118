import Dir248.Grace.Tracker

/-!
# Several trackers

Tables may share a tracker, and readers of different trackers are told apart by one count
over all of them.

* **`Fleet`** — trackers in the order they were opened, and for each reader in the order of
  registration its tracker and its number there.
* **`Fleet.register`**, **`Fleet.perform`** — reader steps by that count.
* **`Fleet.meanwhile`** — the reports of some readers as steps that fall into a wait.
-/

namespace Dir248

/-- Where a reader is registered: the tracker, and the reader's number there. -/
structure Registration where
  tracker : Nat
  reader : Nat
deriving Repr, DecidableEq, Inhabited

/-- Trackers and the readers registered with any of them. -/
structure Fleet where
  trackers : List Tracker := []
  readers : List Registration := []
deriving Repr, DecidableEq, Inhabited

namespace Fleet

/-- Opens a tracker. -/
def openTracker (f : Fleet) (maxReaders : Nat) : Fleet :=
  { f with trackers := f.trackers ++ [Tracker.new maxReaders] }

/-- A tracker; one that was never opened has no readers. -/
def tracker (f : Fleet) (q : Nat) : Tracker := f.trackers.getD q (Tracker.new 0)

/-- Puts a tracker in the place of an earlier state of itself. -/
def setTracker (f : Fleet) (q : Nat) (t : Tracker) : Fleet :=
  { f with trackers := f.trackers.set q t }

/-- Registers a reader with a tracker: the reader's number over all trackers. -/
def register (f : Fleet) (q : Nat) : Traced (Outcome Fleet (Except Failure Nat)) := do
  let out ← (f.tracker q).register
  match out.answer with
  | .ok r =>
    let readers := f.readers ++ [⟨q, r⟩]
    pure ⟨{ f.setTracker q out.state with readers }, .ok f.readers.length⟩
  | .error e => pure ⟨f, .error e⟩

/-- Whether a reader is registered and has not left. -/
def isLive (f : Fleet) (reader : Nat) : Bool :=
  match f.readers[reader]? with
  | some home => ((f.tracker home.tracker).slotOf? home.reader).isSome
  | none => false

/-- Lets a reader take a step. -/
def perform (f : Fleet) (reader : Nat) (step : Nat → ReaderStep) : Traced Fleet :=
  match f.readers[reader]? with
  | some home => do
    let t ← (f.tracker home.tracker).perform (step home.reader)
    pure (f.setTracker home.tracker t)
  | none => pure f

/-- The readers report quiescent, one after the other. -/
def quiesce (f : Fleet) (readers : List Nat) : Fleet :=
  readers.foldl (fun f r => (f.perform r .quiescent).value) f

/-- Whenever a wait on tracker `q` begins, those of the readers that belong to it report
quiescent. -/
def meanwhile (f : Fleet) (q : Nat) (readers : List Nat) : Meanwhile := fun _ =>
  readers.filterMap fun r =>
    match f.readers[r]? with
    | some home => if home.tracker = q then some (.quiescent home.reader) else none
    | none => none

/-- Waits out a grace period of a tracker. -/
def synchronize (f : Fleet) (q : Nat) (meanwhile : Meanwhile) : Traced Fleet := do
  let t ← (f.tracker q).synchronize meanwhile
  pure (f.setTracker q t)

end Fleet

end Dir248
