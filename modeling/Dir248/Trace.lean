import Dir248.Metrics
import Dir248.Note

/-!
# Operations that report what they do

A table operation has a result and, beside it, a trace: every store it makes to the two
arrays, every step readers take while it waits for them, every figure it publishes and
every note it logs, in the order they happen. Where the code relies on a fact about its
state it says so, and a fact that does not hold shows up in the trace as a fault. The
result never depends on the trace, so reasoning about results may forget it.

* **`Event`** — one entry of a trace.
* **`Outcome`** — the state an operation leaves and its answer.
* **`Traced`** — a value together with the trace of its computation, as a monad.
* **`value_bind`**, **`events_bind`** — a sequence computes as if untraced, and its traces
  follow each other.
* **`value_foldlM`** — the same for a loop.
-/

namespace Dir248

/-! ### Events -/

/-- A store of one entry to consecutive slots, one slot after the other in ascending order. -/
inductive Write where
  | buckets (start count : Nat) (entry : Entry)
  | slots (start count : Nat) (slot : Slot)
deriving Repr, DecidableEq

/-- A fact the code relies on that does not hold. -/
inductive Fault where
  /-- Slots beyond the end of an array are read or stored, or a stored field is too wide. -/
  | slotRange
  /-- A cell beyond the end of the rule array is moved, or one in front of its start. -/
  | ruleMove
  /-- More groups are given back or counted as used than there are. -/
  | groupCount
  /-- A rule deeper than a bucket has no group. -/
  | groupMissing
  /-- A change of the next hop of a stored rule had to be undone. -/
  | updateUndone
  /-- An item was sent to a queue without room for it. -/
  | queueOverflow
deriving Repr, DecidableEq

/-- One thing an operation does beside computing its result. -/
inductive Event where
  | write (w : Write)
  | reader (s : ReaderStep)
  | metric (m : Metric)
  | note (n : Note)
  | fault (f : Fault)
deriving Repr, DecidableEq

namespace Event

/-- The store an event is. -/
def write? : Event → Option Write
  | write w => some w
  | _ => none

/-- The reader step an event is. -/
def reader? : Event → Option ReaderStep
  | reader s => some s
  | _ => none

/-- The figure an event publishes. -/
def metric? : Event → Option Metric
  | metric m => some m
  | _ => none

/-- The note an event logs. -/
def note? : Event → Option Note
  | note n => some n
  | _ => none

/-- The fact that an event says does not hold. -/
def fault? : Event → Option Fault
  | fault f => some f
  | _ => none

end Event

/-! ### Traced computations -/

/-- What an operation leaves behind, and what it answers. -/
structure Outcome (σ α : Type) where
  state : σ
  answer : α

/-- A value and what happened while it was computed. -/
structure Traced (α : Type) where
  value : α
  events : List Event := []

namespace Traced

instance : Monad Traced where
  pure a := ⟨a, []⟩
  bind x f :=
    let y := f x.value
    ⟨y.value, x.events ++ y.events⟩

@[simp] theorem value_pure {α : Type} (a : α) : (pure a : Traced α).value = a := rfl

@[simp] theorem events_pure {α : Type} (a : α) : (pure a : Traced α).events = [] := rfl

@[simp] theorem value_bind {α β : Type} (x : Traced α) (f : α → Traced β) :
    (x >>= f).value = (f x.value).value := rfl

@[simp] theorem events_bind {α β : Type} (x : Traced α) (f : α → Traced β) :
    (x >>= f).events = x.events ++ (f x.value).events := rfl

@[simp] theorem value_map {α β : Type} (f : α → β) (x : Traced α) :
    (f <$> x).value = f x.value := rfl

@[simp] theorem events_map {α β : Type} (f : α → β) (x : Traced α) :
    (f <$> x).events = x.events := List.append_nil _

instance : LawfulMonad Traced :=
  LawfulMonad.mk' Traced (fun x => by cases x; simp [Functor.map])
    (fun _ _ => rfl) (fun x f g => by simp [Bind.bind, List.append_assoc])

/-- A loop computes as if untraced. -/
theorem value_foldlM {α β : Type} (f : β → α → Traced β) (xs : List α) (b : β) :
    (xs.foldlM f b).value = xs.foldl (fun b x => (f b x).value) b := by
  induction xs generalizing b with
  | nil => rfl
  | cons x xs ih => simp [List.foldlM_cons, ih]

/-- Records an event. -/
def emit (e : Event) : Traced Unit := ⟨(), [e]⟩

/-- Publishes a figure. -/
def publish (m : Metric) : Traced Unit := emit (.metric m)

/-- Logs a note. -/
def log (n : Note) : Traced Unit := emit (.note n)

/-- Logs a note in some cases only. -/
def logIf (holds : Bool) (n : Note) : Traced Unit := if holds then log n else pure ()

/-- States a fact the code relies on. -/
def require (holds : Bool) (f : Fault) : Traced Unit := if holds then pure () else emit (.fault f)

@[simp] theorem events_emit (e : Event) : (emit e).events = [e] := rfl

@[simp] theorem value_require (holds : Bool) (f : Fault) : (require holds f).value = () := rfl

@[simp] theorem require_true (f : Fault) : require true f = pure () := rfl

/-- The stores of a computation. -/
def writes {α : Type} (x : Traced α) : List Write := x.events.filterMap Event.write?

/-- The steps readers take during a computation. -/
def readerSteps {α : Type} (x : Traced α) : List ReaderStep := x.events.filterMap Event.reader?

/-- The figures a computation publishes. -/
def metrics {α : Type} (x : Traced α) : List Metric := x.events.filterMap Event.metric?

/-- The notes a computation logs. -/
def notes {α : Type} (x : Traced α) : List Note := x.events.filterMap Event.note?

/-- The facts a computation relies on that do not hold. -/
def faults {α : Type} (x : Traced α) : List Fault := x.events.filterMap Event.fault?

end Traced

end Dir248
