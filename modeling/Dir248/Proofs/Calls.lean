import Dir248.Proofs.Registry
import Dir248.Session

/-!
# Calls do what the tables do

A call with status codes stands for a request to the directory or to one of its tables, once what it
was passed has been checked: the places for results, the handle, the bytes of a text, the prefix
they spell to a parser. A call that fails a check asks for nothing. Every other call leaves the
directory as the request does, makes the same stores, and puts the result into a status and into the
places that it was given. Nothing is assumed of the parser.

* **`Request`**, **`Result`**, **`Directory.serve`** — what is asked without status codes.
* **`Call.request`** — the checks of a call, and the request it stands for.
* **`Call.Reports`** — how a result comes back; **`Call.Simulated`** — all that one call does.
* **`Call.Fills`**, **`Call.Recorded`** — what a bulk writes, and what becomes of the last status.
* **`Calls.simulated`**, **`Calls.fills`**, **`Calls.recorded`** — the laws of every call.
-/

namespace Dir248

/-! ### Requests -/

/-- What may be asked of a directory and its tables. -/
inductive Request where
  | create (name : String) (config : Config)
  | find (name : String)
  | close (id : TableId)
  | free (id : TableId)
  | add (id : TableId) (a : Address) (depth nextHop : Nat)
  | delete (id : TableId) (a : Address) (depth : Nat)
  | deleteAll (id : TableId)
  | present (id : TableId) (a : Address) (depth : Nat)
  | lookup (id : TableId) (a : Address)
  | bulk (id : TableId) (addresses : List Address)

/-- What is answered. -/
inductive Result where
  | table (result : Except Failure TableId)
  | done (result : Except Failure Unit)
  | rule (result : Except Failure (Option Nat))
  | hop (result : Option Nat)
  | hops (results : List (Option Nat))

/-- The status of a result: that of its failure, if it is one. An address that no rule covers is
not found. -/
def Result.status : Result → Status
  | table (.error e) | done (.error e) | rule (.error e) => e.status
  | hop none => .notFound
  | _ => .success

namespace Directory

/-- Serves a request. There is no result where there is no table. -/
def serve (d : Directory) : Request → Traced (Outcome Directory (Option Result))
  | .create name config => do
    let out ← d.create name config
    pure ⟨out.state, some (.table out.answer)⟩
  | .find name => pure ⟨d, some (.table (d.find? name))⟩
  | .close id => pure ⟨d, (d.table? id).map fun _ => .done (.ok ())⟩
  | .free id => do
    let freed ← d.free id Calls.alone
    pure ⟨freed, (d.table? id).map fun _ => .done (.ok ())⟩
  | .add id a depth nextHop => do
    let out ← d.run id fun s => s.add a depth nextHop
    pure ⟨out.state, out.answer.map fun r => .done (r.map fun _ => ())⟩
  | .delete id a depth => do
    let out ← d.run id fun s => s.delete a depth Calls.alone
    pure ⟨out.state, out.answer.map fun r => .done r⟩
  | .deleteAll id => do
    let out ← d.run id fun s => do
      let s ← s.deleteAll Calls.alone
      pure ⟨s, .ok ()⟩
    pure ⟨out.state, out.answer.map fun r => .done r⟩
  | .present id a depth => pure ⟨d, (d.table? id).map fun t => .rule (t.present? a depth)⟩
  | .lookup id a => pure ⟨d, (d.table? id).map fun t => .hop (t.lookup a)⟩
  | .bulk id addresses => pure ⟨d, (d.table? id).map fun t => .hops (addresses.map t.lookup)⟩

/-- The directory after requests in a row. -/
def served (d : Directory) (requests : List Request) : Directory :=
  requests.foldl (fun d r => (d.serve r).value.state) d

end Directory

/-! ### What a call stands for -/

/-- A handle that is passed must not be null. -/
def passed (h : Handle) : Except Status TableId :=
  match h with
  | none => .error .invalidHandle
  | some id => .ok id

namespace Call

variable (parse? : String → Option Prefix)

/-- The request that a call stands for, or the status with which it fails its checks. A null handle
that is given back and an empty bulk ask for nothing. -/
def request : Call → Except Status (Option Request)
  | create name config hasOut =>
    if hasOut then (Calls.text name).map fun name => some (.create name config)
    else .error .invalidArgument
  | findExisting name => (Calls.text name).map fun name => some (.find name)
  | close h => .ok (h.map .close)
  | free h => .ok (h.map .free)
  | add h a depth nextHop => (passed h).map fun id => some (.add id a depth nextHop)
  | addCidr h cidr nextHop => do
    let id ← passed h
    let cidr ← Calls.text cidr
    match parse? cidr with
    | some p => .ok (some (.add id p.base p.depth nextHop))
    | none => .error .invalidArgument
  | delete h a depth => (passed h).map fun id => some (.delete id a depth)
  | deleteAll h => (passed h).map fun id => some (.deleteAll id)
  | present h a depth _ hasFound =>
    if hasFound then (passed h).map fun id => some (.present id a depth)
    else .error .invalidArgument
  | lookup h a hasOut =>
    if hasOut then (passed h).map fun id => some (.lookup id a) else .error .invalidArgument
  | bulk h addresses hasOut n _ =>
    if n = 0 then .ok none
    else
      match addresses, hasOut with
      | some addresses, true => (passed h).map fun id => some (.bulk id (addresses.take n))
      | _, _ => .error .invalidArgument

/-- The request of a call that asks for something. -/
def request? (c : Call) : Option Request :=
  match c.request parse? with
  | .ok r => r
  | .error _ => none

/-- What a call returns as its status, if it returns one. -/
def code : Call → Status → Option Status
  | findExisting _, _ | close _, _ | free _, _ => none
  | _, status => some status

/-- Whether a query for a rule has a place for its next hop. -/
def hasNextHop : Call → Bool
  | present _ _ _ hasNextHop _ => hasNextHop
  | _ => false

/-- What stands for an address that no rule covers. -/
def miss : Call → Nat
  | bulk _ _ _ _ miss => miss
  | _ => 0

/-- How a result comes back: its status, and what is written. A handle is written for a table, the
presence and the next hop of a rule only where they were found, and a next hop or the miss for each
address of a bulk. Where there is no success nothing is written. -/
structure Reports (c : Call) (result : Result) (reply : Reply) : Prop where
  status : reply.status = c.code result.status
  handle : ∀ id, reply.handle = some id ↔ result = .table (.ok id)
  found : ∀ b, reply.found = some b ↔ ∃ v, result = .rule (.ok v) ∧ v.isSome = b
  nextHop : ∀ hop, reply.nextHop = some hop ↔
    result = .hop (some hop) ∨ result = .rule (.ok (some hop)) ∧ c.hasNextHop = true
  hops : reply.hops = match result with
    | .hops xs => xs.map fun x => x.getD c.miss
    | _ => []
  unwritten : result.status ≠ .success →
    reply.handle = none ∧ reply.found = none ∧ reply.nextHop = none ∧ reply.hops = []

/-- A call that changes nothing and writes nothing beside its status. -/
structure Idle (c : Call) (s : Calls) (status : Status) : Prop where
  events : (s.call parse? c).events = []
  directory : (s.call parse? c).value.state.directory = s.directory
  answer : (s.call parse? c).value.answer = { status := c.code status }

/-- A call that does what a request does and reports its result. -/
structure Serves (c : Call) (s : Calls) (r : Request) : Prop where
  events : (s.call parse? c).events = (s.directory.serve r).events
  directory : (s.call parse? c).value.state.directory = (s.directory.serve r).value.state
  result : ∃ result, (s.directory.serve r).value.answer = some result ∧
    c.Reports result (s.call parse? c).value.answer

/-- What one call does. It changes nothing when it fails its checks or asks for nothing, and does
what its request does otherwise. -/
structure Simulated (c : Call) (s : Calls) : Prop where
  refused : ∀ status, c.request parse? = .error status → c.Idle parse? s status
  idle : c.request parse? = .ok none → c.Idle parse? s .success
  served : ∀ r, c.request parse? = .ok (some r) → c.Serves parse? s r

/-- A bulk of `n` addresses writes `n` next hops, each the answer to its address or the miss. -/
def Fills (c : Call) (s : Calls) : Prop :=
  ∀ id t addresses n miss, c = .bulk (some id) (some addresses) true n miss →
    s.directory.table? id = some t → n ≤ addresses.length →
      (s.call parse? c).value.answer.hops.length = n ∧ ∀ i a, i < n → addresses[i]? = some a →
        (s.call parse? c).value.answer.hops[i]? = some ((t.lookup a).getD miss)

/-- What becomes of the last status. Most calls record the status that they return, a search by name
records a success when there is a handle, and the fast calls record nothing. -/
def Recorded (c : Call) (s : Calls) : Prop :=
  let out := (s.call parse? c).value
  match c with
  | create .. | add .. | addCidr .. | delete .. | deleteAll .. | present .. =>
    out.answer.status = some out.state.last
  | findExisting _ => out.state.last = .success ↔ out.answer.handle.isSome = true
  | close _ | free _ | lookup .. | bulk .. => out.state.last = s.last

end Call

/-! ### One call -/

namespace Call

variable {parse? : String → Option Prefix} {c : Call} {s : Calls} {status : Status} {r : Request}

theorem simulated_refused (hc : c.request parse? = .error status) (h : c.Idle parse? s status) :
    c.Simulated parse? s := by
  refine ⟨fun status' hc' => ?_, fun hc' => ?_, fun r hc' => ?_⟩ <;> rw [hc] at hc' <;> cases hc'
  exact h

theorem simulated_idle (hc : c.request parse? = .ok none) (h : c.Idle parse? s .success) :
    c.Simulated parse? s := by
  refine ⟨fun status' hc' => ?_, fun hc' => h, fun r hc' => ?_⟩ <;> rw [hc] at hc' <;> cases hc'

theorem simulated_served (hc : c.request parse? = .ok (some r)) (h : c.Serves parse? s r) :
    c.Simulated parse? s := by
  refine ⟨fun status' hc' => ?_, fun hc' => ?_, fun r' hc' => ?_⟩ <;> rw [hc] at hc' <;> cases hc'
  exact h

/-! ### Results that come back -/

theorem reports_table (c : Call) (x : Except Failure TableId) :
    c.Reports (.table x) { status := c.code (Calls.statusOf x), handle := x.toOption } := by
  cases x with
  | error e => refine ⟨rfl, ?_, ?_, ?_, rfl, ?_⟩ <;> simp [Except.toOption]
  | ok id =>
    refine ⟨rfl, ?_, ?_, ?_, rfl, fun h => absurd rfl h⟩ <;> simp [Except.toOption]

theorem reports_done (c : Call) (x : Except Failure Unit) :
    c.Reports (.done x) { status := c.code (Calls.statusOf x) } := by
  refine ⟨?_, ?_, ?_, ?_, rfl, fun _ => ⟨rfl, rfl, rfl, rfl⟩⟩
  · cases x <;> rfl
  all_goals simp

theorem reports_missing (c : Call) (e : Failure) :
    c.Reports (.rule (.error e)) { status := c.code e.status } := by
  refine ⟨rfl, ?_, ?_, ?_, rfl, fun _ => ⟨rfl, rfl, rfl, rfl⟩⟩ <;> simp

theorem reports_rule (c : Call) (found : Option Nat) :
    c.Reports (.rule (.ok found)) { status := c.code .success, found := some found.isSome,
                                    nextHop := if c.hasNextHop then found else none } := by
  refine ⟨rfl, ?_, ?_, fun hop => ?_, rfl, fun h => absurd rfl h⟩
  · simp
  · simp
  · by_cases h : c.hasNextHop = true <;> simp [h]

theorem reports_hop (c : Call) (hop : Nat) :
    c.Reports (.hop (some hop)) { status := c.code .success, nextHop := some hop } := by
  refine ⟨rfl, ?_, ?_, ?_, rfl, fun h => absurd rfl h⟩ <;> simp

theorem reports_miss (c : Call) : c.Reports (.hop none) { status := c.code .notFound } := by
  refine ⟨rfl, ?_, ?_, ?_, rfl, fun _ => ⟨rfl, rfl, rfl, rfl⟩⟩ <;> simp

theorem reports_hops (c : Call) (xs : List (Option Nat)) :
    c.Reports (.hops xs) { status := c.code .success, hops := xs.map fun x => x.getD c.miss } := by
  refine ⟨rfl, ?_, ?_, ?_, rfl, fun h => absurd rfl h⟩ <;> simp

end Call

/-! ### Each call -/

namespace Calls

open Traced

variable {parse? : String → Option Prefix} {s : Calls} {id : TableId} {h : Handle}

theorem target_of_table (hid : (s.directory.table? id).isSome = true) :
    s.target (some id) = .ok id :=
  if_pos hid

theorem router?_of_table (hid : (s.directory.table? id).isSome = true) :
    ∃ x t, s.directory.router? id = some x ∧ s.directory.table? id = some t := by
  obtain ⟨t, ht⟩ := Option.isSome_iff_exists.mp hid
  obtain ⟨hosted, hh, -⟩ := Option.map_eq_some_iff.mp ht
  exact ⟨_, t, congrArg _ hh, ht⟩

/-- A call that runs an operation on its table. -/
theorem serves_onTable {α : Type} {c : Call} {r : Request}
    {op : Router → Traced (Outcome Router (Except Failure α))}
    {f : Except Failure α → Except Failure Unit} (hf : ∀ x, statusOf (f x) = statusOf x)
    (hid : (s.directory.table? id).isSome = true) (hcode : ∀ status, c.code status = some status)
    (hcall : s.call parse? c = do
      let out ← s.onTable (some id) op
      pure ⟨out.state, { status := some out.answer }⟩)
    (hserve : s.directory.serve r = do
      let out ← s.directory.run id op
      pure ⟨out.state, out.answer.map fun x => .done (f x)⟩) : c.Serves parse? s r := by
  obtain ⟨x, t, hx, ht⟩ := router?_of_table hid
  have hrun : s.directory.run id op = op x >>= fun out =>
      pure ⟨s.directory.setRouter id out.state, some out.answer⟩ := by
    unfold Directory.run
    rw [hx]
  have htarget := target_of_table hid
  have hreports := c.reports_done (f (op x).value.answer)
  rw [hcode, hf] at hreports
  refine ⟨?_, ?_, .done (f (op x).value.answer), ?_, ?_⟩
  all_goals simp only [hcall, hserve, onTable, htarget, hrun]
  · simp
  · rfl
  · rfl
  · exact hreports

theorem simulated_create (s : Calls) (name : Option (List UInt8)) (config : Config)
    (hasOut : Bool) : (Call.create name config hasOut).Simulated parse? s := by
  cases hasOut with
  | false => exact Call.simulated_refused rfl ⟨rfl, rfl, rfl⟩
  | true =>
    cases hname : text name with
    | error status =>
      have hc : (Call.create name config true).request parse? = .error status := by
        simp [Call.request, hname, Except.map]
      refine Call.simulated_refused hc ⟨?_, ?_, ?_⟩ <;>
      simp [call, create, hname, finish, Call.code]
    | ok text =>
      refine Call.simulated_served (r := .create text config)
        (by simp [Call.request, hname, Except.map]) ⟨?_, ?_, _, rfl, ?_⟩
      · simp [call, create, hname, Directory.serve]
      · simp [call, create, hname, Directory.serve, finish]
      · have hreports := (Call.create name config true).reports_table
          (s.directory.create text config).value.answer
        simpa [call, create, hname, finish, Call.code] using hreports

theorem simulated_findExisting (s : Calls) (name : Option (List UInt8)) :
    (Call.findExisting name).Simulated parse? s := by
  cases hname : text name with
  | error status =>
    have hc : (Call.findExisting name).request parse? = .error status := by
      simp [Call.request, hname, Except.map]
    refine Call.simulated_refused hc ⟨?_, ?_, ?_⟩ <;>
    simp [call, findExisting, hname, finish, Call.code]
  | ok text =>
    refine Call.simulated_served (r := .find text)
      (by simp [Call.request, hname, Except.map]) ⟨?_, ?_, _, rfl, ?_⟩
    · simp [call, Directory.serve]
    · simp [call, findExisting, hname, Directory.serve, finish]
    · have hreports := (Call.findExisting name).reports_table (s.directory.find? text)
      simpa [call, findExisting, hname, finish, Call.code] using hreports

theorem simulated_close (hlive : ∀ id ∈ h, (s.directory.table? id).isSome = true) :
    (Call.close h).Simulated parse? s := by
  cases h with
  | none => exact Call.simulated_idle rfl ⟨rfl, rfl, rfl⟩
  | some id =>
    obtain ⟨x, t, -, ht⟩ := router?_of_table (hlive id rfl)
    have hresult : (s.directory.serve (.close id)).value.answer = some (.done (.ok ())) :=
      congrArg (Option.map fun _ => Result.done (.ok ())) ht
    exact Call.simulated_served rfl ⟨rfl, rfl, _, hresult, Call.reports_done _ (.ok ())⟩

theorem simulated_free (hlive : ∀ id ∈ h, (s.directory.table? id).isSome = true) :
    (Call.free h).Simulated parse? s := by
  cases h with
  | none => exact Call.simulated_idle rfl ⟨rfl, rfl, rfl⟩
  | some id =>
    obtain ⟨x, t, -, ht⟩ := router?_of_table (hlive id rfl)
    have hresult : (s.directory.serve (.free id)).value.answer = some (.done (.ok ())) :=
      congrArg (Option.map fun _ => Result.done (.ok ())) ht
    refine Call.simulated_served rfl ⟨?_, rfl, _, hresult, Call.reports_done _ (.ok ())⟩
    simp [call, free, Directory.serve]

theorem simulated_add (hlive : ∀ id ∈ h, (s.directory.table? id).isSome = true) (a : Address)
    (depth nextHop : Nat) : (Call.add h a depth nextHop).Simulated parse? s := by
  cases h with
  | none => exact Call.simulated_refused rfl ⟨rfl, rfl, rfl⟩
  | some id =>
    exact Call.simulated_served rfl (serves_onTable (fun x => by cases x <;> rfl) (hlive id rfl)
      (fun _ => rfl) rfl rfl)

theorem simulated_delete (hlive : ∀ id ∈ h, (s.directory.table? id).isSome = true) (a : Address)
    (depth : Nat) : (Call.delete h a depth).Simulated parse? s := by
  cases h with
  | none => exact Call.simulated_refused rfl ⟨rfl, rfl, rfl⟩
  | some id =>
    exact Call.simulated_served rfl (serves_onTable (f := fun x => x) (fun _ => rfl)
      (hlive id rfl) (fun _ => rfl) rfl rfl)

theorem simulated_deleteAll (hlive : ∀ id ∈ h, (s.directory.table? id).isSome = true) :
    (Call.deleteAll h).Simulated parse? s := by
  cases h with
  | none => exact Call.simulated_refused rfl ⟨rfl, rfl, rfl⟩
  | some id =>
    exact Call.simulated_served rfl (serves_onTable (f := fun x => x) (fun _ => rfl)
      (hlive id rfl) (fun _ => rfl) rfl rfl)

/-- A prefix in text is checked after the handle, and then added like any other. -/
theorem simulated_addCidr (hlive : ∀ id ∈ h, (s.directory.table? id).isSome = true)
    (cidr : Option (List UInt8)) (nextHop : Nat) :
    (Call.addCidr h cidr nextHop).Simulated parse? s := by
  cases h with
  | none => exact Call.simulated_refused rfl ⟨rfl, rfl, rfl⟩
  | some id =>
    have htarget := target_of_table (hlive id rfl)
    cases htext : text cidr with
    | error status =>
      have hc : (Call.addCidr (some id) cidr nextHop).request parse? = .error status := by
        simp [Call.request, passed, htext, Bind.bind, Except.bind]
      refine Call.simulated_refused hc ⟨?_, ?_, ?_⟩ <;>
      simp [call, addCidr, htarget, htext, finish, Call.code]
    | ok text =>
      cases hparse : parse? text with
      | none =>
        have hc : (Call.addCidr (some id) cidr nextHop).request parse? =
            .error .invalidArgument := by
          simp [Call.request, passed, htext, hparse, Bind.bind, Except.bind]
        refine Call.simulated_refused hc ⟨?_, ?_, ?_⟩ <;>
        simp [call, addCidr, htarget, htext, hparse, finish, Call.code]
      | some p =>
        refine Call.simulated_served (r := .add id p.base p.depth nextHop)
          (by simp [Call.request, passed, htext, hparse, Bind.bind, Except.bind]) ?_
        refine serves_onTable (fun x => by cases x <;> rfl) (hlive id rfl) (fun _ => rfl) ?_ rfl
        simp only [call, addCidr, htarget, htext, hparse]
        rfl

theorem simulated_present (hlive : ∀ id ∈ h, (s.directory.table? id).isSome = true) (a : Address)
    (depth : Nat) (hasNextHop hasFound : Bool) :
    (Call.present h a depth hasNextHop hasFound).Simulated parse? s := by
  cases hasFound with
  | false => exact Call.simulated_refused rfl ⟨rfl, rfl, rfl⟩
  | true =>
    cases h with
    | none => exact Call.simulated_refused rfl ⟨rfl, rfl, rfl⟩
    | some id =>
      have htarget := target_of_table (hlive id rfl)
      obtain ⟨x, t, -, ht⟩ := router?_of_table (hlive id rfl)
      have hresult : (s.directory.serve (.present id a depth)).value.answer =
          some (.rule (t.present? a depth)) :=
        congrArg (Option.map fun t : Table => Result.rule (t.present? a depth)) ht
      refine Call.simulated_served rfl ⟨rfl, ?_, _, hresult, ?_⟩
      · simp only [call, present, htarget, ht, Directory.serve]
        cases t.present? a depth <;> rfl
      · cases hfound : t.present? a depth with
        | error e =>
          have hreports := (Call.present (some id) a depth hasNextHop true).reports_missing e
          simpa [call, present, htarget, ht, hfound, Call.code] using hreports
        | ok found =>
          have hreports := (Call.present (some id) a depth hasNextHop true).reports_rule found
          cases hasNextHop <;>
          simpa [call, present, htarget, ht, hfound, Call.code, Call.hasNextHop] using hreports

theorem simulated_lookup (hlive : ∀ id ∈ h, (s.directory.table? id).isSome = true) (a : Address)
    (hasOut : Bool) : (Call.lookup h a hasOut).Simulated parse? s := by
  cases hasOut with
  | false => exact Call.simulated_refused rfl ⟨rfl, rfl, rfl⟩
  | true =>
    cases h with
    | none => exact Call.simulated_refused rfl ⟨rfl, rfl, rfl⟩
    | some id =>
      obtain ⟨x, t, -, ht⟩ := router?_of_table (hlive id rfl)
      have hresult : (s.directory.serve (.lookup id a)).value.answer = some (.hop (t.lookup a)) :=
        congrArg (Option.map fun t : Table => Result.hop (t.lookup a)) ht
      refine Call.simulated_served rfl ⟨rfl, rfl, _, hresult, ?_⟩
      cases hfound : t.lookup a with
      | none =>
        have hreports := (Call.lookup (some id) a true).reports_miss
        simpa [call, lookup, ht, hfound, Call.code] using hreports
      | some hop =>
        have hreports := (Call.lookup (some id) a true).reports_hop hop
        simpa [call, lookup, ht, hfound, Call.code] using hreports

/-- What a bulk of addresses comes back with. -/
theorem call_bulk {t : Table} (ht : s.directory.table? id = some t) (addresses : List Address)
    (n miss : Nat) : s.call parse? (.bulk (some id) (some addresses) true n miss) =
      pure ⟨s, { status := some .success,
                 hops := (addresses.take n).map fun a => (t.lookup a).getD miss }⟩ := by
  by_cases hn : n = 0
  · simp [call, bulk, hn]
  · simp [call, bulk, hn, ht]

theorem simulated_bulk (hlive : ∀ id ∈ h, (s.directory.table? id).isSome = true)
    (addresses : Option (List Address)) (hasOut : Bool) (n miss : Nat) :
    (Call.bulk h addresses hasOut n miss).Simulated parse? s := by
  by_cases hn : n = 0
  · refine Call.simulated_idle (by simp [Call.request, hn]) ⟨?_, ?_, ?_⟩ <;>
    simp [call, bulk, hn, Call.code]
  · have hrefused : ∀ status, (Call.bulk h addresses hasOut n miss).request parse? = .error status →
        s.bulk h addresses hasOut n miss = (status, []) →
        (Call.bulk h addresses hasOut n miss).Simulated parse? s := by
      intro status hc hs
      refine Call.simulated_refused hc ⟨rfl, rfl, ?_⟩
      simp [call, hs, Call.code]
    cases addresses with
    | none => exact hrefused .invalidArgument (by simp [Call.request, hn]) (by simp [bulk, hn])
    | some addresses =>
      cases hasOut with
      | false => exact hrefused .invalidArgument (by simp [Call.request, hn]) (by simp [bulk, hn])
      | true =>
        cases h with
        | none =>
          exact hrefused .invalidHandle (by simp [Call.request, hn, passed, Except.map])
            (by simp [bulk, hn])
        | some id =>
          obtain ⟨x, t, -, ht⟩ := router?_of_table (hlive id rfl)
          have hresult : (s.directory.serve (.bulk id (addresses.take n))).value.answer =
              some (.hops ((addresses.take n).map t.lookup)) :=
            congrArg (Option.map fun t : Table => Result.hops ((addresses.take n).map t.lookup)) ht
          refine Call.simulated_served (r := .bulk id (addresses.take n))
            (by simp [Call.request, hn, passed, Except.map]) ⟨rfl, rfl, _, hresult, ?_⟩
          have hreports := (Call.bulk (some id) (some addresses) true n miss).reports_hops
            ((addresses.take n).map t.lookup)
          rw [call_bulk ht]
          rw [List.map_map] at hreports
          exact hreports

/-- Every call whose handle is null or stands for a table does what its request does. -/
theorem simulated (s : Calls) (c : Call)
    (hlive : ∀ id ∈ c.handle, (s.directory.table? id).isSome = true) : c.Simulated parse? s := by
  cases c with
  | create name config hasOut => exact simulated_create s name config hasOut
  | findExisting name => exact simulated_findExisting s name
  | close h => exact simulated_close hlive
  | free h => exact simulated_free hlive
  | add h a depth nextHop => exact simulated_add hlive a depth nextHop
  | addCidr h cidr nextHop => exact simulated_addCidr hlive cidr nextHop
  | delete h a depth => exact simulated_delete hlive a depth
  | deleteAll h => exact simulated_deleteAll hlive
  | present h a depth hasNextHop hasFound =>
    exact simulated_present hlive a depth hasNextHop hasFound
  | lookup h a hasOut => exact simulated_lookup hlive a hasOut
  | bulk h addresses hasOut n miss => exact simulated_bulk hlive addresses hasOut n miss

theorem fills (s : Calls) (c : Call) : c.Fills parse? s := by
  rintro id t addresses n miss rfl ht hn
  rw [call_bulk ht]
  refine ⟨by simp [hn], fun i a hi ha => ?_⟩
  simp [hi, ha]

/-! ### The last status -/

/-- Success is the status of what is answered, and of nothing else. -/
theorem statusOf_eq_success_iff {α : Type} {x : Except Failure α} :
    statusOf x = .success ↔ x.toOption.isSome = true := by
  cases x with
  | ok a => simp [statusOf, Except.toOption]
  | error e => cases e <;> simp [statusOf, Failure.status, Except.toOption]

theorem text_ne_success {bytes : Option (List UInt8)} {status : Status}
    (h : text bytes = .error status) : status ≠ .success := by
  unfold text at h
  split at h
  · cases h
    decide
  · split at h <;> cases h
    decide

/-- An operation on a table records what it returns. -/
theorem recorded_onTable {α : Type} (s : Calls) (h : Handle)
    (op : Router → Traced (Outcome Router (Except Failure α))) :
    (s.onTable h op).value.state.last = (s.onTable h op).value.answer := by
  unfold onTable
  split <;> rfl

theorem recorded_create (s : Calls) (name : Option (List UInt8)) (config : Config)
    (hasOut : Bool) : (Call.create name config hasOut).Recorded parse? s := by
  cases hasOut with
  | false => rfl
  | true =>
    cases hname : text name <;> simp [Call.Recorded, call, create, hname, finish]

theorem recorded_addCidr (s : Calls) (h : Handle) (cidr : Option (List UInt8)) (nextHop : Nat) :
    (Call.addCidr h cidr nextHop).Recorded parse? s := by
  refine congrArg some (Eq.symm ?_)
  show (s.addCidr h cidr nextHop parse?).value.state.last =
    (s.addCidr h cidr nextHop parse?).value.answer
  unfold addCidr
  split
  · rfl
  · split
    · rfl
    · split
      · rfl
      · exact recorded_onTable ..

theorem recorded_findExisting (s : Calls) (name : Option (List UInt8)) :
    (Call.findExisting name).Recorded parse? s := by
  cases hname : text name with
  | error status =>
    simpa [Call.Recorded, call, findExisting, hname, finish] using text_ne_success hname
  | ok text =>
    simpa [Call.Recorded, call, findExisting, hname, finish] using statusOf_eq_success_iff

theorem recorded_present (s : Calls) (h : Handle) (a : Address) (depth : Nat)
    (hasNextHop hasFound : Bool) :
    (Call.present h a depth hasNextHop hasFound).Recorded parse? s := by
  refine congrArg some (Eq.symm ?_)
  show (s.present h a depth hasNextHop hasFound).state.last =
    (s.present h a depth hasNextHop hasFound).answer.status
  unfold present
  split
  · rfl
  · split
    · rfl
    · split
      · rfl
      · split <;> rfl

theorem recorded (s : Calls) (c : Call) : c.Recorded parse? s := by
  cases c with
  | create name config hasOut => exact recorded_create s name config hasOut
  | findExisting name => exact recorded_findExisting s name
  | close h => rfl
  | free h => cases h <;> rfl
  | add h a depth nextHop => exact congrArg some (recorded_onTable ..).symm
  | addCidr h cidr nextHop => exact recorded_addCidr s h cidr nextHop
  | delete h a depth => exact congrArg some (recorded_onTable ..).symm
  | deleteAll h => exact congrArg some (recorded_onTable ..).symm
  | present h a depth hasNextHop hasFound => exact recorded_present s h a depth hasNextHop hasFound
  | lookup h a hasOut => rfl
  | bulk h addresses hasOut n miss => rfl

end Calls

end Dir248
