import Dir248.Calls

/-!
# Sessions of calls

The calls of the interface as data, so that a whole session is a list. What comes back to the caller
is the status, if the call returns one, and whatever the call wrote to the places it was given. A
place that is not written keeps what it held.

* **`Call`**, **`Reply`**, **`Calls.call`** — one call and what comes back, with any parser of the
  prefixes in text.
* **`Calls.session`**, **`Calls.after`** — a session and the state it leaves; **`after_append`**
  says that it can be cut anywhere.
* **`Calls.Live`** — a session passes no handle that it does not hold.
-/

namespace Dir248

/-- A call of the interface. A missing pointer to bytes or addresses is nothing, and a place for a
result is there or not. -/
inductive Call where
  | create (name : Option (List UInt8)) (config : Config) (hasOut : Bool)
  | findExisting (name : Option (List UInt8))
  | close (h : Handle)
  | free (h : Handle)
  | add (h : Handle) (a : Address) (depth nextHop : Nat)
  | addCidr (h : Handle) (cidr : Option (List UInt8)) (nextHop : Nat)
  | delete (h : Handle) (a : Address) (depth : Nat)
  | deleteAll (h : Handle)
  | present (h : Handle) (a : Address) (depth : Nat) (hasNextHop hasFound : Bool)
  | lookup (h : Handle) (a : Address) (hasOut : Bool)
  | bulk (h : Handle) (addresses : Option (List Address)) (hasOut : Bool) (n miss : Nat)

/-- What comes back from a call: the status it returns, the handle it returns or writes, and what it
writes as the presence of a rule, as a next hop, and as the next hops of many addresses. -/
structure Reply where
  status : Option Status := none
  handle : Handle := none
  found : Option Bool := none
  nextHop : Option Nat := none
  hops : List Nat := []
deriving Repr, DecidableEq

namespace Call

/-- The handle that a call is given. -/
def handle : Call → Handle
  | create .. | findExisting _ => none
  | close h | free h | deleteAll h => h
  | add h .. | addCidr h .. | delete h .. | present h .. | lookup h .. | bulk h .. => h

/-- The handles that a caller holds after a call. Those that a call hands out come in, and the one
that is closed or freed goes. -/
def holds (c : Call) (held : List TableId) (reply : Reply) : List TableId :=
  match c with
  | create .. | findExisting _ => reply.handle.toList ++ held
  | close (some id) | free (some id) => held.erase id
  | _ => held

end Call

namespace Calls

variable (parse? : String → Option Prefix)

/-- Makes one call. -/
def call (s : Calls) : Call → Traced (Outcome Calls Reply)
  | .create name config hasOut => do
    let out ← s.create name config hasOut
    pure ⟨out.state, { status := some out.answer.1, handle := out.answer.2 }⟩
  | .findExisting name =>
    let out := s.findExisting name
    pure ⟨out.state, { handle := out.answer }⟩
  | .close h => pure ⟨s.close h, {}⟩
  | .free h => do
    let s ← s.free h
    pure ⟨s, {}⟩
  | .add h a depth nextHop => do
    let out ← s.add h a depth nextHop
    pure ⟨out.state, { status := some out.answer }⟩
  | .addCidr h cidr nextHop => do
    let out ← s.addCidr h cidr nextHop parse?
    pure ⟨out.state, { status := some out.answer }⟩
  | .delete h a depth => do
    let out ← s.delete h a depth
    pure ⟨out.state, { status := some out.answer }⟩
  | .deleteAll h => do
    let out ← s.deleteAll h
    pure ⟨out.state, { status := some out.answer }⟩
  | .present h a depth hasNextHop hasFound =>
    let out := s.present h a depth hasNextHop hasFound
    pure ⟨out.state, { status := some out.answer.status, found := out.answer.found,
                       nextHop := out.answer.nextHop }⟩
  | .lookup h a hasOut =>
    let out := s.lookup h a hasOut
    pure ⟨s, { status := some out.1, nextHop := out.2 }⟩
  | .bulk h addresses hasOut n miss =>
    let out := s.bulk h addresses hasOut n miss
    pure ⟨s, { status := some out.1, hops := out.2 }⟩

/-- Makes the calls of a session: the state they leave and what came back from each. -/
def session (s : Calls) : List Call → Traced (Outcome Calls (List Reply))
  | [] => pure ⟨s, []⟩
  | c :: calls => do
    let first ← s.call parse? c
    let rest ← first.state.session calls
    pure ⟨rest.state, first.answer :: rest.answer⟩

/-- The state a session leaves. -/
def after (s : Calls) (calls : List Call) : Calls := (s.session parse? calls).value.state

theorem after_nil (s : Calls) : s.after parse? [] = s := rfl

theorem after_cons (s : Calls) (c : Call) (calls : List Call) :
    s.after parse? (c :: calls) = (s.call parse? c).value.state.after parse? calls := rfl

theorem after_append (s : Calls) (calls more : List Call) :
    s.after parse? (calls ++ more) = (s.after parse? calls).after parse? more := by
  induction calls generalizing s with
  | nil => rfl
  | cons c calls ih => exact ih _

/-- Every handle that a session passes is null or held when it is passed. -/
def Live (s : Calls) (held : List TableId) : List Call → Prop
  | [] => True
  | c :: calls => (∀ id ∈ c.handle, id ∈ held) ∧
      (s.call parse? c).value.state.Live (c.holds held (s.call parse? c).value.answer) calls

instance decidableLive : (s : Calls) → (held : List TableId) → (calls : List Call) →
    Decidable (s.Live parse? held calls)
  | _, _, [] => inferInstanceAs (Decidable True)
  | s, held, c :: calls =>
    have := decidableLive (s.call parse? c).value.state
      (c.holds held (s.call parse? c).value.answer) calls
    inferInstanceAs (Decidable ((∀ id ∈ c.handle, id ∈ held) ∧ _))

end Calls

end Dir248
