import Dir248.Table

/-!
# Runs of a table and its readers

The operations of the writer as data, so that a whole history is a list: turns of the one
writer, steps of readers between them, and grace periods that others open on the same
tracker. The reader steps that fall into a wait of the writer belong to the writer's turn.

* **`Command`**, **`Answer`**, **`Router.perform`** — one operation and what it answers.
* **`Turn`**, **`Router.take`** — what may happen next.
* **`Router.run`**, **`Router.after`** — a history and the state it leaves; **`after_append`**
  says that it can be cut anywhere.
-/

namespace Dir248

/-- An operation of the writer. -/
inductive Command where
  | add (a : Address) (depth nextHop : Nat)
  | delete (a : Address) (depth : Nat)
  | deleteAll
  | reclaim
  | bind (mode : ReclaimMode)
  | settle
deriving Repr, DecidableEq

/-- What an operation answers. -/
inductive Answer where
  | added (result : Except Failure AddOutcome)
  | done (result : Except Failure Unit)
  | freed (groups : Nat)

/-- One turn of a history. -/
inductive Turn where
  /-- The writer runs a command, and readers take steps while it waits. -/
  | write (c : Command) (meanwhile : Meanwhile)
  /-- A reader takes a step. -/
  | read (step : ReaderStep)
  /-- Somebody else opens a grace period. -/
  | grace

namespace Router

/-- Runs one command. -/
def perform (s : Router) (c : Command) (meanwhile : Meanwhile) : Traced (Outcome Router Answer) :=
  match c with
  | .add a depth nextHop => do
    let out ← s.add a depth nextHop
    pure ⟨out.state, .added out.answer⟩
  | .delete a depth => do
    let out ← s.delete a depth meanwhile
    pure ⟨out.state, .done out.answer⟩
  | .deleteAll => do
    let s ← s.deleteAll meanwhile
    pure ⟨s, .done (.ok ())⟩
  | .reclaim => do
    let out ← s.reclaim
    pure ⟨out.state, .freed out.answer⟩
  | .bind mode => do
    let out ← s.bind mode
    pure ⟨out.state, .done out.answer⟩
  | .settle => do
    let s ← s.settle meanwhile
    pure ⟨s, .done (.ok ())⟩

/-- Lets one turn happen. Only commands are answered. -/
def take (s : Router) : Turn → Traced (Outcome Router (Option Answer))
  | .write c meanwhile => do
    let out ← s.perform c meanwhile
    pure ⟨out.state, some out.answer⟩
  | .read step => ⟨⟨s.advance step, none⟩, [.reader step]⟩
  | .grace => pure ⟨{ s with tracker := s.tracker.start }, none⟩

/-- Lets a history happen: the state it leaves and the answers, one for each turn. -/
def run (s : Router) : List Turn → Traced (Outcome Router (List (Option Answer)))
  | [] => pure ⟨s, []⟩
  | turn :: turns => do
    let first ← s.take turn
    let rest ← first.state.run turns
    pure ⟨rest.state, first.answer :: rest.answer⟩

/-- The state a history leaves. -/
def after (s : Router) (turns : List Turn) : Router := (s.run turns).value.state

theorem after_nil (s : Router) : s.after [] = s := rfl

theorem after_cons (s : Router) (turn : Turn) (turns : List Turn) :
    s.after (turn :: turns) = (s.take turn).value.state.after turns := rfl

theorem after_append (s : Router) (turns more : List Turn) :
    s.after (turns ++ more) = (s.after turns).after more := by
  induction turns generalizing s with
  | nil => rfl
  | cons turn turns ih => exact ih _

end Router

end Dir248
