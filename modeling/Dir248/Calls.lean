import Dir248.Cidr
import Dir248.Directory

/-!
# Calls with status codes

The interface for callers that pass raw bytes, nullable handles and nullable places for
results, and get a numbered status back. A handle is the number of a table or nothing. Most
calls also record their status as the last one; lookups, being on the fast path, and the
calls that give a handle back record nothing.

What a caller passes is checked first: a place for the result that is missing, then a
missing handle or text, then the bytes of the text. A call that fails a check changes
nothing but the last status. What counts as a prefix in text is up to the parser that the
interface is given, which is `Prefix.parse?` unless another is named.

* **`Calls`** — the directory behind the interface and the last status.
* **`Calls.create`** to **`Calls.present`** — the calls that record their status.
* **`Calls.lookup`**, **`Calls.bulk`**, **`Calls.free`** — those that do not.
* **`last_finish`** — a call that records its status answers with it.
-/

namespace Dir248

/-- The state of the interface. -/
structure Calls where
  directory : Directory := {}
  last : Status := .success

/-- A caller's reference to a table. -/
abbrev Handle := Option TableId

/-- What the last rule query wrote to its two places. -/
structure Presence where
  status : Status
  found : Option Bool := none
  nextHop : Option Nat := none
deriving Repr, DecidableEq

namespace Calls

/-! ### Arguments -/

/-- The text in front of the first zero byte; there is none without a pointer, and it must
be UTF-8. -/
def text (bytes : Option (List UInt8)) : Except Status String :=
  match bytes with
  | none => .error .invalidArgument
  | some bytes =>
    match String.fromUTF8? ⟨(bytes.takeWhile (· != 0)).toArray⟩ with
    | some s => .ok s
    | none => .error .utf8Error

/-- The table behind a handle. -/
def target (s : Calls) (h : Handle) : Except Status TableId :=
  match h with
  | none => .error .invalidHandle
  | some id => if (s.directory.table? id).isSome then .ok id else .error .invalidHandle

/-- The status of a result. -/
def statusOf {α : Type} : Except Failure α → Status
  | .ok _ => .success
  | .error e => e.status

/-- Records a status and answers with it. -/
def finish (s : Calls) (status : Status) : Outcome Calls Status :=
  ⟨{ s with last := status }, status⟩

theorem last_finish (s : Calls) (status : Status) :
    (s.finish status).state.last = (s.finish status).answer := rfl

/-- Runs an operation on the table behind a handle and records its status. -/
def onTable {α : Type} (s : Calls) (h : Handle)
    (op : Router → Traced (Outcome Router (Except Failure α))) : Traced (Outcome Calls Status) :=
  match s.target h with
  | .error status => pure (s.finish status)
  | .ok id => do
    let out ← s.directory.run id op
    let status := match out.answer with
      | some answer => statusOf answer
      | none => .invalidHandle
    pure (finish { s with directory := out.state } status)

/-- A writer behind this interface has no reader steps to wait for. -/
def alone : Meanwhile := fun _ => []

/-! ### Handles -/

/-- Makes and registers a table: the status, and the handle where the caller has a place
for it. -/
def create (s : Calls) (name : Option (List UInt8)) (config : Config) (hasOut : Bool) :
    Traced (Outcome Calls (Status × Handle)) :=
  if !hasOut then pure ⟨(s.finish .invalidArgument).state, (.invalidArgument, none)⟩
  else
    match text name with
    | .error status => pure ⟨(s.finish status).state, (status, none)⟩
    | .ok name => do
      let out ← s.directory.create name config
      let done := finish { s with directory := out.state } (statusOf out.answer)
      pure ⟨done.state, (done.answer, out.answer.toOption)⟩

/-- A handle to the table of a name. -/
def findExisting (s : Calls) (name : Option (List UInt8)) : Outcome Calls Handle :=
  match text name with
  | .error status => ⟨(s.finish status).state, none⟩
  | .ok name =>
    let found := s.directory.find? name
    ⟨(s.finish (statusOf found)).state, found.toOption⟩

/-- Gives a handle back. The table stays registered. -/
def close (s : Calls) (_h : Handle) : Calls := s

/-- Frees the table behind a handle and gives the handle back. -/
def free (s : Calls) (h : Handle) : Traced Calls :=
  match h with
  | none => pure s
  | some id => do
    let directory ← s.directory.free id alone
    pure { s with directory }

/-! ### Rules -/

/-- Adds a rule. -/
def add (s : Calls) (h : Handle) (a : Address) (depth nextHop : Nat) :
    Traced (Outcome Calls Status) :=
  s.onTable h fun router => router.add a depth nextHop

/-- Adds a rule whose prefix is given as text. -/
def addCidr (s : Calls) (h : Handle) (cidr : Option (List UInt8)) (nextHop : Nat)
    (parse? : String → Option Prefix := Prefix.parse?) : Traced (Outcome Calls Status) :=
  match s.target h with
  | .error status => pure (s.finish status)
  | .ok _ =>
    match text cidr with
    | .error status => pure (s.finish status)
    | .ok cidr =>
      match parse? cidr with
      | none => pure (s.finish .invalidArgument)
      | some p => s.add h p.base p.depth nextHop

/-- Deletes a rule. -/
def delete (s : Calls) (h : Handle) (a : Address) (depth : Nat) : Traced (Outcome Calls Status) :=
  s.onTable h fun router => router.delete a depth alone

/-- Deletes every rule. -/
def deleteAll (s : Calls) (h : Handle) : Traced (Outcome Calls Status) :=
  s.onTable h fun router => do
    let router ← router.deleteAll alone
    pure ⟨router, (.ok () : Except Failure Unit)⟩

/-- Asks for the rule of exactly a prefix: the status, and what was written to the places
the caller has for whether it was found and for its next hop. -/
def present (s : Calls) (h : Handle) (a : Address) (depth : Nat) (hasNextHop hasFound : Bool) :
    Outcome Calls Presence :=
  let answer (status : Status) : Outcome Calls Presence := ⟨(s.finish status).state, { status }⟩
  if !hasFound then answer .invalidArgument
  else
    match s.target h with
    | .error status => answer status
    | .ok id =>
      match s.directory.table? id with
      | none => answer .invalidHandle
      | some t =>
        match t.present? a depth with
        | .error e => answer e.status
        | .ok found =>
          ⟨(s.finish .success).state,
            { status := .success
              found := some found.isSome
              nextHop := if hasNextHop then found else none }⟩

/-! ### Lookups -/

/-- Looks an address up: the status, and what was written as its next hop. -/
def lookup (s : Calls) (h : Handle) (a : Address) (hasOut : Bool) : Status × Option Nat :=
  if !hasOut then (.invalidArgument, none)
  else
    match h.bind s.directory.table? with
    | none => (.invalidHandle, none)
    | some t =>
      match t.lookup a with
      | some nextHop => (.success, some nextHop)
      | none => (.notFound, none)

/-- Looks up the first `n` addresses: the status, and what was written, with `miss` for
every address that no rule covers. -/
def bulk (s : Calls) (h : Handle) (addresses : Option (List Address)) (hasOut : Bool) (n : Nat)
    (miss : Nat) : Status × List Nat :=
  if n = 0 then (.success, [])
  else
    match addresses, hasOut with
    | some addresses, true =>
      match h.bind s.directory.table? with
      | none => (.invalidHandle, [])
      | some t => (.success, (addresses.take n).map fun a => (t.lookup a).getD miss)
    | _, _ => (.invalidArgument, [])

end Calls

end Dir248
