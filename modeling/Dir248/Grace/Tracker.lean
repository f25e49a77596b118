import Dir248.Trace

/-!
# Readers and grace periods

Readers look addresses up without a lock, so a writer that took a group out of the first
level may not reuse it while a reader can still be inside. A tracker decides when that is
over. It counts tokens; a reader that is online keeps the token it last saw in its slot,
zero while offline. A grace period opens with a fresh token and is over once every
registered reader is offline or has seen that token.

A writer that waits for a grace period cannot be stepped through from outside, so a wait
takes the reader steps that fall into it. Readers that still hold the period back after
those steps report once, which is what the writer waits for.

* **`Tracker`**, **`Tracker.advance`** — the state, and the steps of readers.
* **`start`**, **`check`**, **`synchronize`** — opening a grace period, asking for its end,
  and waiting for it.
* **`token_advance`** — readers issue no tokens.
-/

namespace Dir248

/-- A place for one reader: whether a reader holds it, and the token it saw last, zero
while it is offline. -/
structure ReaderSlot where
  taken : Bool := false
  seen : Nat := 0
deriving Repr, DecidableEq, Inhabited

/-- The token counter, the reader slots, and the slot of every reader that ever
registered, in order of registration, until it leaves. -/
structure Tracker where
  token : Nat := 1
  slots : List ReaderSlot
  readers : List (Option Nat) := []
deriving Repr, DecidableEq, Inhabited

/-- The reader steps that fall into the wait for each token. -/
abbrev Meanwhile := Nat → List ReaderStep

namespace Tracker

/-- A tracker with the given number of free reader slots. -/
def new (maxReaders : Nat) : Tracker := { slots := List.replicate maxReaders {} }

/-- The number of reader slots. -/
def maxReaders (t : Tracker) : Nat := t.slots.length

/-! ### Readers -/

/-- The slot a reader holds, unless it never registered or has left. -/
def slotOf? (t : Tracker) (reader : Nat) : Option Nat := t.readers[reader]?.join

/-- The lowest slot no reader holds. -/
def freeSlot? (t : Tracker) : Option Nat := t.slots.findIdx? fun s => !s.taken

/-- Changes the slot a reader holds, if it holds one. -/
def updateSlot (t : Tracker) (reader : Nat) (f : ReaderSlot → ReaderSlot) : Tracker :=
  match t.slotOf? reader with
  | some i => { t with slots := t.slots.modify i f }
  | none => t

/-- The tracker after one reader step. A reader that is not there does nothing, and a
reader that finds no free slot does not come in. -/
def advance (t : Tracker) : ReaderStep → Tracker
  | .register =>
    match t.freeSlot? with
    | some i =>
      { t with
        slots := t.slots.set i { taken := true, seen := 0 }
        readers := t.readers ++ [some i] }
    | none => t
  | .online r | .quiescent r => t.updateSlot r fun s => { s with seen := t.token }
  | .offline r => t.updateSlot r fun s => { s with seen := 0 }
  | .leave r =>
    let gone := t.updateSlot r fun _ => { taken := false, seen := 0 }
    { gone with readers := t.readers.set r none }

/-- Lets a reader in: its number, or no space when all slots are taken. -/
def register (t : Tracker) : Traced (Outcome Tracker (Except Failure Nat)) :=
  match t.freeSlot? with
  | some i => do
    Traced.log (.readerRegistered i)
    pure ⟨t.advance .register, .ok t.readers.length⟩
  | none => do
    Traced.log (.readerSlotsTaken t.maxReaders)
    pure ⟨t, .error .outOfSpace⟩

/-- What the log says about a reader step: a reader that leaves is worth a note. -/
def remarks (t : Tracker) : ReaderStep → List Note
  | .leave r => (t.slotOf? r).toList.map Note.readerUnregistered
  | _ => []

/-- Lets a reader step be taken, with what the log says about it. -/
def perform (t : Tracker) (step : ReaderStep) : Traced Tracker :=
  ⟨t.advance step, (t.remarks step).map Event.note⟩

@[simp] theorem token_updateSlot (t : Tracker) (reader : Nat) (f : ReaderSlot → ReaderSlot) :
    (t.updateSlot reader f).token = t.token := by
  unfold updateSlot
  split <;> rfl

/-- Readers issue no tokens. -/
@[simp] theorem token_advance (t : Tracker) (step : ReaderStep) :
    (t.advance step).token = t.token := by
  cases step with
  | register =>
    simp only [advance]
    split <;> rfl
  | online r => exact token_updateSlot ..
  | offline r => exact token_updateSlot ..
  | quiescent r => exact token_updateSlot ..
  | leave r => exact token_updateSlot ..

@[simp] theorem token_foldl_advance (t : Tracker) (steps : List ReaderStep) :
    (steps.foldl advance t).token = t.token := by
  induction steps generalizing t with
  | nil => rfl
  | cons step steps ih => rw [List.foldl_cons, ih, token_advance]

/-! ### Grace periods -/

/-- Opens a grace period. Its token is the one the tracker shows afterwards. -/
def start (t : Tracker) : Tracker := { t with token := t.token + 1 }

/-- Whether the reader of a slot is done with everything from before a token. -/
def ReaderSlot.past (s : ReaderSlot) (token : Nat) : Bool :=
  !s.taken || s.seen == 0 || decide (token ≤ s.seen)

/-- Whether the grace period of a token is over. -/
def check (t : Tracker) (token : Nat) : Bool := t.slots.all fun s => ReaderSlot.past s token

/-- Whether a reader holds back the grace period of a token. -/
def isLate (t : Tracker) (token reader : Nat) : Bool :=
  match t.slotOf? reader with
  | some i => !ReaderSlot.past (t.slots.getD i {}) token
  | none => false

/-- The reports of the readers that hold back the grace period of a token. -/
def holdouts (t : Tracker) (token : Nat) : List ReaderStep :=
  ((List.range t.readers.length).filter (t.isLate token)).map .quiescent

/-- The reader steps of a wait that has just begun: those that fall into it, and then the
reports it is still waiting for. -/
def waitSteps (t : Tracker) (steps : List ReaderStep) : List ReaderStep :=
  steps ++ (steps.foldl advance t).holdouts t.token

/-- Waits out one grace period: opens it, lets the reader steps that fall into it happen,
and returns when it is over. -/
def synchronize (t : Tracker) (meanwhile : Meanwhile) : Traced Tracker :=
  let t := t.start
  let steps := t.waitSteps (meanwhile t.token)
  ⟨steps.foldl advance t, steps.map Event.reader ++ [.note (.graceComplete t.token)]⟩

end Tracker

end Dir248
