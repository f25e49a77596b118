import Dir248.Grace.Fleet
import Dir248.Table

/-!
# Tables by name

A directory holds tables, each under the number it was made with, and the names some of
them are registered under. A number stays good after its table lost its name: a table that
was replaced under its name goes on working for those who still hold it, and giving up its
name again does nothing to its successor.

* **`Directory`** — the tables, the names, and the trackers that tables may be bound to.
* **`make`**, **`create`**, **`find?`** — a new table, a new named table, a table by name.
* **`register`**, **`unregister`** — giving and taking a name.
* **`run`** — an operation on one table, with the tracker the table is bound to.
* **`lookupName_register`**, **`lookupName_unregister`** — what becomes of the names.
* **`table?_setRouter`** — a table that was put back is the table found there.
-/

namespace Dir248

/-- A table number. -/
abbrev TableId := Nat

/-- A table, and the tracker it is bound to. -/
structure Hosted where
  table : Table
  tracker : Option Nat := none

/-- Tables, their registered names, and the trackers of their readers. -/
structure Directory where
  tables : List Hosted := []
  names : List (String × TableId) := []
  fleet : Fleet := {}

namespace Directory

/-! ### One table -/

/-- The tracker a hosted table consults; one that is bound to none has no readers. -/
def trackerOf (d : Directory) (h : Hosted) : Tracker :=
  match h.tracker with
  | some q => d.fleet.tracker q
  | none => .new 0

/-- A table with the tracker it is bound to. -/
def router? (d : Directory) (id : TableId) : Option Router :=
  d.tables[id]?.map fun h => ⟨h.table, d.trackerOf h⟩

/-- Puts a table and its tracker back. -/
def setRouter (d : Directory) (id : TableId) (s : Router) : Directory :=
  match d.tables[id]? with
  | none => d
  | some h =>
    { d with
      tables := d.tables.set id { h with table := s.table }
      fleet :=
        match h.tracker with
        | some q => d.fleet.setTracker q s.tracker
        | none => d.fleet }

/-- Runs an operation on one table; there is no answer when there is no such table. -/
def run {α : Type} (d : Directory) (id : TableId) (op : Router → Traced (Outcome Router α)) :
    Traced (Outcome Directory (Option α)) :=
  match d.router? id with
  | none => pure ⟨d, none⟩
  | some s => do
    let out ← op s
    pure ⟨d.setRouter id out.state, some out.answer⟩

/-- The table of a number. -/
def table? (d : Directory) (id : TableId) : Option Table := (d.tables[id]?).map Hosted.table

theorem table?_setRouter (d : Directory) (id : TableId) (s : Router) (h : id < d.tables.length) :
    (d.setRouter id s).table? id = some s.table := by
  simp [setRouter, table?, h]

/-- The reports of some readers as steps that fall into the waits of a table. -/
def meanwhile (d : Directory) (id : TableId) (readers : List Nat) : Meanwhile :=
  match d.tables[id]? with
  | some { tracker := some q, .. } => d.fleet.meanwhile q readers
  | _ => fun _ => []

/-- The readers report quiescent, one after the other. -/
def quiesce (d : Directory) (readers : List Nat) : Directory :=
  { d with fleet := d.fleet.quiesce readers }

/-! ### Names -/

/-- The table registered under a name. -/
def lookupName (d : Directory) (name : String) : Option TableId := d.names.lookup name

/-- Whether a name is registered. -/
def contains (d : Directory) (name : String) : Bool := (d.lookupName name).isSome

/-- The table registered under a name. -/
def find? (d : Directory) (name : String) : Except Failure TableId :=
  match d.lookupName name with
  | some id => .ok id
  | none => .error .notFound

/-- All registered names, in ascending order. -/
def sortedNames (d : Directory) : List String :=
  (d.names.map Prod.fst).mergeSort fun a b => !decide (b < a)

/-- Registers a table under its own name, unless the name is taken. -/
def register (d : Directory) (id : TableId) : Outcome Directory (Except Failure Unit) :=
  match d.table? id with
  | none => ⟨d, .error .notFound⟩
  | some t =>
    if d.contains t.name then ⟨d, .error .alreadyExists⟩
    else ⟨{ d with names := (t.name, id) :: d.names }, .ok ()⟩

/-- Takes a table's name away, if the name still stands for this table: whether it did. -/
def unregister (d : Directory) (id : TableId) : Outcome Directory Bool :=
  match d.table? id with
  | none => ⟨d, false⟩
  | some t =>
    if d.lookupName t.name = some id then
      ⟨{ d with names := d.names.filter fun entry => entry.1 != t.name }, true⟩
    else ⟨d, false⟩

theorem lookupName_register (d : Directory) (id : TableId) (t : Table) (ht : d.table? id = some t)
    (hfree : d.contains t.name = false) (name : String) :
    (d.register id).state.lookupName name =
      if name = t.name then some id else d.lookupName name := by
  simp only [register, ht, hfree, lookupName, Bool.false_eq_true, if_false, List.lookup_cons]
  by_cases h : name = t.name
  · simp [h]
  · rw [if_neg h, show (name == t.name) = false by simpa using h]

theorem lookup_filter_ne (names : List (String × TableId)) (gone name : String) :
    (names.filter fun entry => entry.1 != gone).lookup name =
      if name = gone then none else names.lookup name := by
  induction names with
  | nil => simp
  | cons entry names ih =>
    by_cases he : entry.1 = gone
    · rw [List.filter_cons_of_neg (by simp [he]), ih, List.lookup_cons]
      by_cases hn : name = gone
      · simp [hn]
      · rw [if_neg hn, if_neg hn, show (name == entry.1) = false by simpa [he] using hn]
    · rw [List.filter_cons_of_pos (by simpa using he), List.lookup_cons, List.lookup_cons, ih]
      by_cases hn : name = entry.1
      · have : name ≠ gone := hn ▸ he
        simp [hn, he]
      · rw [show (name == entry.1) = false by simpa using hn]

theorem lookupName_unregister (d : Directory) (id : TableId) (t : Table)
    (ht : d.table? id = some t) (name : String) :
    (d.unregister id).state.lookupName name =
      if name = t.name ∧ d.lookupName t.name = some id then none else d.lookupName name := by
  simp only [unregister, ht]
  by_cases h : d.lookupName t.name = some id
  · simp only [h, if_true, and_true]
    exact lookup_filter_ne d.names t.name name
  · simp [h]

/-! ### Making and freeing tables -/

/-- Makes a table without registering its name: its number. -/
def make (d : Directory) (name : String) (config : Config) :
    Traced (Outcome Directory (Except Failure TableId)) := do
  match ← Table.create name config with
  | .ok table => pure ⟨{ d with tables := d.tables ++ [{ table }] }, .ok d.tables.length⟩
  | .error e => pure ⟨d, .error e⟩

/-- Makes a table and registers its name. A name that is taken is refused before anything
else is looked at. -/
def create (d : Directory) (name : String) (config : Config) :
    Traced (Outcome Directory (Except Failure TableId)) :=
  if d.contains name then do
    Traced.log (.nameTaken name)
    pure ⟨d, .error .alreadyExists⟩
  else do
    let made ← d.make name config
    match made.answer with
    | .error e => pure ⟨made.state, .error e⟩
    | .ok id =>
      let registered := made.state.register id
      pure ⟨registered.state, registered.answer.map fun _ => id⟩

/-- Takes a table's name away and frees every group that is still pending. -/
def free (d : Directory) (id : TableId) (meanwhile : Meanwhile) : Traced Directory := do
  let freed := d.unregister id
  Traced.logIf freed.answer (.nameReleased (((d.table? id).map Table.name).getD ""))
  let settled ← freed.state.run id fun s => do
    let s ← s.settle meanwhile
    pure ⟨s, ()⟩
  pure settled.state

/-! ### Reclamation -/

/-- Binds a table to a tracker. -/
def bind (d : Directory) (id : TableId) (tracker : Nat) (mode : ReclaimMode) :
    Traced (Outcome Directory (Option (Except Failure Unit))) := do
  let out ← d.run id fun s => s.bind mode
  match out.answer with
  | some (.ok ()) =>
    let tables := out.state.tables.modify id fun h => { h with tracker := some tracker }
    pure ⟨{ out.state with tables }, out.answer⟩
  | _ => pure out

end Directory

end Dir248
