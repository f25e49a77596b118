import Dir248.Command
import Dir248.Directory
import Dir248.Proofs.Traces
import Mathlib.Data.List.Basic

/-!
# Whose name it is

A table outlives its name, a name passes from one table to the next, and a table that lost its
name may get it back. The record of a run lists who was given a name and who gave one up, by
number; the directory never knows more than that record.

* **`Act`**, **`Directory.act`**, **`Directory.deeds`** — what may happen to a directory, and what
  of it concerns names.
* **`Stands`** — a table was the last to get a name, and has not given it up since.
* **`Directory.value_create`** — when a table cannot be created, and which failure wins.
* **`Directory.Named`** — names are unique, belong to tables of that name, and stand;
  **`Named.persists`**, **`Named.gain`** and **`Named.drop`** are the steps.
* **`Directory.Lawful`**, **`Directory.lawful_after`** — the law of names over whole runs.
-/

namespace Dir248

/-! ### Names in a record -/

/-- What may happen to a directory: the calls of the registry, and the work of tables that were
made. A table goes by its number in every handle to it. -/
inductive Act where
  | make (name : String) (config : Config)
  | create (name : String) (config : Config)
  | find (name : String)
  | register (id : TableId)
  | unregister (id : TableId)
  | free (id : TableId) (meanwhile : Meanwhile)
  | close (id : TableId)
  | bind (id : TableId) (tracker : Nat) (mode : ReclaimMode)
  | work (id : TableId) (turn : Turn)

/-- An entry of the record: a table was registered under a name, or was asked to give its name
up. -/
inductive Deed where
  | named (name : String) (id : TableId)
  | dropped (id : TableId)
deriving Repr, DecidableEq

/-- The table was the last that was registered under the name, and has not been unregistered or
freed since. -/
def Stands (name : String) (id : TableId) : List Deed → Prop :=
  Since (· = .named name id) fun x => (∃ id', x = .named name id') ∨ x = .dropped id

section Stands

variable {name name' : String} {id id' : TableId} {log : List Deed}

theorem stands_concat_named : Stands name id (log ++ [.named name' id']) ↔
    if name = name' then id = id' else Stands name id log := by
  rw [Stands, since_concat]
  rcases eq_or_ne name name' with rfl | hne
  · simp [eq_comm]
  · simp [hne, Ne.symm hne]

theorem stands_concat_dropped :
    Stands name id (log ++ [.dropped id']) ↔ Stands name id log ∧ id ≠ id' := by
  rw [Stands, since_concat]
  simp [eq_comm]

end Stands

/-! ### Tables keep their own name -/

namespace Router

variable {s : Router}

@[simp] theorem name_setPlane (s : Router) (p : Plane) :
    (s.setPlane p).table.name = s.table.name := rfl

@[simp] theorem name_setRules (s : Router) (rules : RuleStore) :
    (s.setRules rules).table.name = s.table.name := rfl

theorem state_added (s : Router) (r : Rule) (outcome : AddOutcome) :
    (s.added r outcome).value.state = s := by
  cases outcome <;> rfl

theorem name_project (s : Router) (r : Rule) (stored : Stored) (outcome : AddOutcome) :
    (s.project r stored outcome).value.state.table.name = s.table.name := by
  unfold project
  split
  · rw [Traced.value_bind, state_added, name_setPlane]
  · rw [Traced.value_bind]
    split
    · rw [state_added, name_setPlane]
    · rfl

theorem name_addRule (s : Router) (r : Rule) :
    (s.addRule r).value.state.table.name = s.table.name := by
  unfold addRule
  rw [Traced.value_bind]
  split
  · rfl
  · rfl
  · exact name_project ..
  · exact name_project ..

theorem name_delete (s : Router) (a : Address) (depth : Nat) (meanwhile : Meanwhile) :
    (s.delete a depth meanwhile).value.state.table.name = s.table.name := by
  unfold delete
  split
  · rfl
  · split
    · rfl
    · simp only [deleteAt, withdraw, Traced.value_bind]
      split <;> rfl

theorem name_settle (s : Router) (meanwhile : Meanwhile) :
    (s.settle meanwhile).value.table.name = s.table.name := rfl

/-- Nothing renames a table. -/
theorem name_take (s : Router) (turn : Turn) :
    (s.take turn).value.state.table.name = s.table.name := by
  cases turn with
  | read step => rfl
  | grace => rfl
  | write c meanwhile =>
    cases c with
    | add a depth nextHop =>
      show (s.add a depth nextHop).value.state.table.name = s.table.name
      unfold add
      split
      · rfl
      · split
        · rfl
        · exact name_addRule ..
    | delete a depth => exact name_delete ..
    | deleteAll => rfl
    | reclaim => rfl
    | bind mode => rfl
    | settle => rfl

end Router

namespace Directory

variable {d d' : Directory} {name : String} {id : TableId} {log : List Deed}

/-! ### What happens to a directory -/

/-- The directory after an act. Looking a name up and closing a handle change nothing. -/
def act (d : Directory) : Act → Directory
  | .make name config => (d.make name config).value.state
  | .create name config => (d.create name config).value.state
  | .find _ => d
  | .register id => (d.register id).state
  | .unregister id => (d.unregister id).state
  | .free id meanwhile => (d.free id meanwhile).value
  | .close _ => d
  | .bind id tracker mode => (d.bind id tracker mode).value.state
  | .work id turn => (d.run id fun s => s.take turn).value.state

/-- The name of the table of a number. -/
def nameOf? (d : Directory) (id : TableId) : Option String := (d.table? id).map Table.name

/-- What an act does to names: a registration that succeeds, and every attempt to give a name
up. -/
def deeds (d : Directory) : Act → List Deed
  | .create name config =>
    match (d.create name config).value.answer with
    | .ok id => [.named name id]
    | .error _ => []
  | .register id =>
    match (d.register id).answer, d.nameOf? id with
    | .ok (), some name => [.named name id]
    | _, _ => []
  | .unregister id | .free id _ => [.dropped id]
  | .make .. | .find _ | .close _ | .bind .. | .work .. => []

/-- The record of acts in a row. -/
def record (d : Directory) : List Act → List Deed
  | [] => []
  | a :: acts => d.deeds a ++ (d.act a).record acts

/-! ### One act -/

/-- The names stand as they did, and no table lost its own. -/
structure Persists (d d' : Directory) : Prop where
  names : d'.names = d.names
  nameOf : ∀ {id name}, d.nameOf? id = some name → d'.nameOf? id = some name

theorem Persists.refl (d : Directory) : Persists d d := ⟨rfl, id⟩

theorem nameOf?_setRouter (d : Directory) (id : TableId) {s s' : Router}
    (hs : d.router? id = some s) (hname : s'.table.name = s.table.name) (id' : TableId) :
    (d.setRouter id s').nameOf? id' = d.nameOf? id' := by
  obtain ⟨h, hh, rfl⟩ := Option.map_eq_some_iff.mp hs
  simp only [nameOf?, table?, setRouter, hh, List.getElem?_set]
  split
  · next heq =>
    subst heq
    obtain ⟨hlt, -⟩ := List.getElem?_eq_some_iff.mp hh
    simp only [hlt, if_true, hh, Option.map_some]
    exact congrArg some hname
  · rfl

theorem names_setRouter (d : Directory) (id : TableId) (s : Router) :
    (d.setRouter id s).names = d.names := by
  unfold setRouter
  split <;> rfl

/-- An operation on one table leaves the names alone. -/
theorem persists_run {α : Type} (d : Directory) (id : TableId)
    (op : Router → Traced (Outcome Router α))
    (hop : ∀ s, (op s).value.state.table.name = s.table.name) :
    Persists d (d.run id op).value.state := by
  unfold run
  split
  · exact .refl d
  · next s hs =>
    exact ⟨names_setRouter .., fun h => (nameOf?_setRouter d id hs (hop s) _).trans h⟩

theorem persists_bind (d : Directory) (id : TableId) (tracker : Nat) (mode : ReclaimMode) :
    Persists d (d.bind id tracker mode).value.state := by
  have hrun : Persists d (d.run id fun s => s.bind mode).value.state :=
    persists_run d id _ fun _ => rfl
  unfold bind
  rw [Traced.value_bind]
  split
  · refine ⟨hrun.names, fun {id' name'} h => ?_⟩
    have hname := hrun.nameOf h
    simp only [nameOf?, table?, List.getElem?_modify, Traced.value_pure] at hname ⊢
    rw [← hname]
    cases (d.run id fun s => s.bind mode).value.state.tables[id']? with
    | none => rfl
    | some hosted =>
      simp only [Option.map_eq_map, Option.map_some]
      split <;> rfl
  · exact hrun

/-- A table that was made has no name in the directory. -/
theorem persists_make (d : Directory) (name : String) (config : Config) :
    Persists d (d.make name config).value.state := by
  unfold make
  rw [Traced.value_bind]
  split
  · refine ⟨rfl, fun {id' name'} h => ?_⟩
    obtain ⟨t, ht, rfl⟩ := Option.map_eq_some_iff.mp h
    obtain ⟨hosted, hh, rfl⟩ := Option.map_eq_some_iff.mp ht
    obtain ⟨hlt, -⟩ := List.getElem?_eq_some_iff.mp hh
    simp [nameOf?, table?, List.getElem?_append_left hlt, hh]
  · exact .refl d

theorem value_make (d : Directory) (name : String) (config : Config) :
    (d.make name config).value = match Table.complaint? name config with
      | some what => ⟨d, .error (.invalidArgument what)⟩
      | none => ⟨{ d with tables := d.tables ++ [{ table := .empty name config }] },
          .ok d.tables.length⟩ := by
  unfold make Table.create
  cases Table.complaint? name config <;> rfl

theorem register_of_free (d : Directory) (id : TableId) {t : Table} (ht : d.table? id = some t)
    (hfree : ¬ d.contains t.name = true) :
    d.register id = ⟨{ d with names := (t.name, id) :: d.names }, .ok ()⟩ := by
  simp only [register, ht, if_neg hfree]

/-- A new table gets its name unless the name is taken or the table is refused, and taken names
are refused first. -/
theorem value_create (d : Directory) (name : String) (config : Config) :
    (d.create name config).value =
      if d.contains name then ⟨d, .error .alreadyExists⟩
      else match Table.complaint? name config with
        | some what => ⟨d, .error (.invalidArgument what)⟩
        | none => ⟨{ d with
            tables := d.tables ++ [{ table := .empty name config }]
            names := (name, d.tables.length) :: d.names }, .ok d.tables.length⟩ := by
  unfold create
  split
  · rfl
  · next hfree =>
    rw [Traced.value_bind, value_make]
    cases Table.complaint? name config with
    | some what => rfl
    | none =>
      have hregister := register_of_free { d with
        tables := d.tables ++ [{ table := .empty name config }] } d.tables.length
        (t := .empty name config) (by simp [table?]) hfree
      simp only [Traced.value_pure, hregister]
      rfl

/-! ### Names that stand -/

/-- Every name occurs once, belongs to a table of that name, and is the one that stands in the
record. -/
structure Named (d : Directory) (log : List Deed) : Prop where
  nodup : (d.names.map Prod.fst).Nodup
  own : ∀ {name id}, (name, id) ∈ d.names → d.nameOf? id = some name
  stands : ∀ {name id}, (name, id) ∈ d.names ↔ Stands name id log

theorem lookupName_eq_some_iff (hnodup : (d.names.map Prod.fst).Nodup) :
    d.lookupName name = some id ↔ (name, id) ∈ d.names := by
  rw [lookupName]
  generalize d.names = names at hnodup
  induction names with
  | nil => simp
  | cons entry names ih =>
    obtain ⟨hfresh, hnodup⟩ := List.nodup_cons.mp hnodup
    rw [List.lookup_cons, List.mem_cons]
    by_cases h : name = entry.1
    · subst h
      have hnot : (entry.1, id) ∉ names := fun hmem => hfresh (List.mem_map.mpr ⟨_, hmem, rfl⟩)
      simp [hnot, Prod.ext_iff, eq_comm]
    · rw [show (name == entry.1) = false by simpa using h, ih hnodup]
      simp [Prod.ext_iff, h]

theorem contains_eq_false_iff : d.contains name = false ↔ ∀ id, (name, id) ∉ d.names := by
  rw [contains, Option.isSome_eq_false_iff, Option.isNone_iff_eq_none, lookupName,
    List.lookup_eq_none_iff]
  constructor
  · intro h id hmem
    simpa using h _ hmem
  · rintro h ⟨name', id⟩ hmem
    rw [bne_iff_ne]
    rintro rfl
    exact h id hmem

theorem Named.persists (h : d.Named log) (hp : Persists d d') : d'.Named log :=
  ⟨hp.names ▸ h.nodup, fun hmem => hp.nameOf (h.own (hp.names ▸ hmem)), hp.names ▸ h.stands⟩

/-- A name that is free goes to a table of that name. -/
theorem Named.gain (h : d.Named log) (hfree : d.contains name = false)
    (hown : d.nameOf? id = some name) :
    ({ d with names := (name, id) :: d.names } : Directory).Named (log ++ [.named name id]) := by
  have hfresh := contains_eq_false_iff.mp hfree
  refine ⟨?_, ?_, ?_⟩
  · refine List.nodup_cons.mpr ⟨fun hmem => ?_, h.nodup⟩
    obtain ⟨⟨name', id'⟩, hentry, heq⟩ := List.mem_map.mp hmem
    obtain rfl : name' = name := heq
    exact hfresh id' hentry
  · intro name' id' hmem
    rcases List.mem_cons.mp hmem with heq | hmem
    · obtain ⟨rfl, rfl⟩ := Prod.mk.inj heq
      exact hown
    · exact h.own hmem
  · intro name' id'
    rw [stands_concat_named, List.mem_cons, ← h.stands]
    rcases eq_or_ne name' name with rfl | hne
    · simp [hfresh id']
    · simp [hne]

/-- A table that gives its name up has none, whoever else may have had the name by then. -/
theorem Named.drop (h : d.Named log) (id : TableId) :
    (d.unregister id).state.Named (log ++ [.dropped id]) := by
  have hstands : ∀ {name' id'}, Stands name' id' (log ++ [.dropped id]) ↔
      (name', id') ∈ d.names ∧ id' ≠ id := by
    intro name' id'
    rw [stands_concat_dropped, h.stands]
  -- a table without a name, or whose name went to another, is nowhere among the names
  have hnone : (∀ name', (name', id) ∉ d.names) → d.Named (log ++ [.dropped id]) := by
    refine fun hnot => ⟨h.nodup, h.own, fun {name' id'} => ?_⟩
    rw [hstands]
    refine ⟨fun hmem => ⟨hmem, ?_⟩, And.left⟩
    rintro rfl
    exact hnot name' hmem
  unfold unregister
  split
  · next hmissing =>
    refine hnone fun name' hmem => ?_
    have hname := h.own hmem
    rw [nameOf?, hmissing] at hname
    cases hname
  · next t ht =>
    have hown : d.nameOf? id = some t.name := by rw [nameOf?, ht, Option.map_some]
    split
    · next hlookup =>
      have hmem := (lookupName_eq_some_iff h.nodup).mp hlookup
      refine ⟨h.nodup.sublist (List.filter_sublist.map Prod.fst),
        fun hmem => h.own (List.mem_filter.mp hmem).1, fun {name' id'} => ?_⟩
      rw [hstands, List.mem_filter]
      simp only [bne_iff_ne, ne_eq, and_congr_right_iff]
      intro hmem'
      constructor
      · rintro hne rfl
        exact hne (Option.some.inj ((h.own hmem').symm.trans hown))
      · rintro hne rfl
        have hsame := (lookupName_eq_some_iff h.nodup).mpr hmem'
        rw [hlookup] at hsame
        exact hne (Option.some.inj hsame).symm
    · next hother =>
      refine hnone fun name' hmem => hother ?_
      obtain rfl := Option.some.inj ((h.own hmem).symm.trans hown)
      exact (lookupName_eq_some_iff h.nodup).mpr hmem

theorem Named.create (h : d.Named log) (name : String) (config : Config) :
    (d.act (.create name config)).Named (log ++ d.deeds (.create name config)) := by
  simp only [act, deeds, value_create]
  split
  · rwa [List.append_nil]
  · next hfree =>
    rw [Bool.not_eq_true] at hfree
    have hmade := persists_make d name config
    rw [value_make] at hmade
    cases hcomplaint : Table.complaint? name config with
    | some what => rwa [List.append_nil]
    | none =>
      rw [hcomplaint] at hmade
      refine Named.gain (h.persists hmade) hfree ?_
      simp [nameOf?, table?, Table.empty]

theorem Named.register (h : d.Named log) (id : TableId) :
    (d.act (.register id)).Named (log ++ d.deeds (.register id)) := by
  simp only [act, deeds, nameOf?, Directory.register]
  cases ht : d.table? id with
  | none => rwa [List.append_nil]
  | some t =>
    simp only
    split
    · rwa [List.append_nil]
    · next hfree =>
      refine h.gain (Bool.not_eq_true _ ▸ hfree) ?_
      rw [nameOf?, ht, Option.map_some]

theorem persists_free (d : Directory) (id : TableId) (meanwhile : Meanwhile) :
    Persists (d.unregister id).state (d.free id meanwhile).value :=
  persists_run (d.unregister id).state id (fun s => do
    let s ← s.settle meanwhile
    pure ⟨s, ()⟩) fun s => s.name_settle meanwhile

/-- Every act keeps the directory in step with its record. -/
theorem Named.act (h : d.Named log) (a : Act) : (d.act a).Named (log ++ d.deeds a) := by
  cases a with
  | create name config => exact h.create name config
  | register id => exact h.register id
  | unregister id => exact h.drop id
  | free id meanwhile => exact (h.drop id).persists (persists_free d id meanwhile)
  | make name config =>
    rw [deeds, List.append_nil]
    exact h.persists (persists_make d name config)
  | bind id tracker mode =>
    rw [deeds, List.append_nil]
    exact h.persists (persists_bind d id tracker mode)
  | work id turn =>
    rw [deeds, List.append_nil]
    exact h.persists (persists_run d id _ fun s => s.name_take turn)
  | find name =>
    rw [deeds, List.append_nil]
    exact h
  | close id =>
    rw [deeds, List.append_nil]
    exact h

theorem Named.foldl_act (h : d.Named log) (acts : List Act) :
    (acts.foldl Directory.act d).Named (log ++ d.record acts) := by
  induction acts generalizing d log with
  | nil => rwa [record, List.append_nil]
  | cons a acts ih =>
    rw [record, ← List.append_assoc]
    exact ih (h.act a)

/-! ### What callers see -/

theorem find?_eq_ok_iff : d.find? name = .ok id ↔ d.lookupName name = some id := by
  unfold find?
  cases d.lookupName name <;> simp

theorem find?_eq_error_iff :
    d.find? name = .error .notFound ↔ ∀ id, d.find? name ≠ .ok id := by
  unfold find?
  cases d.lookupName name <;> simp

theorem contains_iff : d.contains name = true ↔ ∃ id, d.find? name = .ok id := by
  simp only [find?_eq_ok_iff, contains, Option.isSome_iff_exists]

theorem Named.find?_iff (h : d.Named log) : d.find? name = .ok id ↔ Stands name id log := by
  rw [find?_eq_ok_iff, lookupName_eq_some_iff h.nodup, h.stands]

/-- A failed registration changes nothing. -/
theorem register_of_error {e : Failure} (h : (d.register id).answer = .error e) :
    (d.register id).state = d := by
  unfold register at h ⊢
  split
  · rfl
  · next ht =>
    rw [ht] at h
    simp only at h
    split
    · rfl
    · next hfree =>
      rw [if_neg hfree] at h
      cases h

/-- A table that the directory does not know under its name gives nothing up. -/
theorem unregister_of_other {t : Table} (ht : d.table? id = some t)
    (hother : d.find? t.name ≠ .ok id) : (d.unregister id).state = d := by
  rw [Ne, find?_eq_ok_iff] at hother
  simp only [unregister, ht, if_neg hother]

theorem complaint?_eq_some_iff {config : Config} :
    (∃ what, Table.complaint? name config = some what) ↔
      name = "" ∨ maxNameBytes < name.utf8ByteSize ∨ config.maxRules = 0 ∨
        maxGroups < config.groups := by
  simp only [Table.complaint?, String.utf8ByteSize_eq_zero_iff]
  split
  · next h => simpa using h.imp_right Or.inl
  · next h =>
    rw [not_or] at h
    split
    · next hrules => simp [hrules]
    · next hrules => split <;> simp_all

/-- What the registry promises about a directory with a given record. -/
structure Lawful (d : Directory) (log : List Deed) : Prop where
  /-- Each name maps to at most one table. -/
  unique : (d.names.map Prod.fst).Nodup
  /-- The name of the table is the key. -/
  own : ∀ name id, (name, id) ∈ d.names → ∃ t, d.table? id = some t ∧ t.name = name
  /-- A look-up finds the table that was registered last, unless it gave the name up. -/
  find : ∀ name id, d.find? name = .ok id ↔ Stands name id log
  /-- There is no other outcome but that nothing is found. -/
  notFound : ∀ name, d.find? name = .error .notFound ↔ ∀ id, ¬ Stands name id log
  /-- A table whose name is free or another's takes nothing away. -/
  other : ∀ id t meanwhile, d.table? id = some t → d.find? t.name ≠ .ok id →
    (d.unregister id).state = d ∧ (d.free id meanwhile).value.names = d.names
  /-- A registration that fails changes nothing. -/
  register : ∀ id e, (d.register id).answer = .error e → (d.register id).state = d
  /-- A creation that fails changes nothing. -/
  create : ∀ name config e, (d.create name config).value.answer = .error e →
    (d.create name config).value.state = d
  /-- A name that is registered is refused whatever the sizing. -/
  exists_iff : ∀ name config, (d.create name config).value.answer = .error .alreadyExists ↔
    ∃ id, d.find? name = .ok id
  /-- Of the other names those are refused that are empty or too long, or come with a sizing
  that is out of bounds. -/
  invalid_iff : ∀ name config,
    (∃ what, (d.create name config).value.answer = .error (.invalidArgument what)) ↔
      (¬ ∃ id, d.find? name = .ok id) ∧ (name = "" ∨ 32 < name.utf8ByteSize ∨
        config.maxRules = 0 ∨ 2 ^ 24 < config.groups)
  /-- Everything else is created. -/
  created_iff : ∀ name config, (∃ id, (d.create name config).value.answer = .ok id) ↔
      ¬ ((∃ id, d.find? name = .ok id) ∨ name = "" ∨ 32 < name.utf8ByteSize ∨
        config.maxRules = 0 ∨ 2 ^ 24 < config.groups)

theorem Named.lawful (h : d.Named log) : d.Lawful log where
  unique := h.nodup
  own name id hmem := Option.map_eq_some_iff.mp (h.own hmem)
  find name id := h.find?_iff
  notFound name := by simp only [find?_eq_error_iff, ne_eq, h.find?_iff]
  other id t meanwhile ht hother := by
    have hsame := unregister_of_other ht hother
    exact ⟨hsame, (persists_free d id meanwhile).names.trans (congrArg names hsame)⟩
  register id e := register_of_error
  create name config e he := by
    rw [value_create] at he ⊢
    split
    · rfl
    · next hfree =>
      rw [if_neg hfree] at he
      cases hcomplaint : Table.complaint? name config with
      | some what => rfl
      | none =>
        rw [hcomplaint] at he
        cases he
  exists_iff name config := by
    rw [← contains_iff, value_create]
    cases hcontains : d.contains name with
    | true => simp
    | false => cases Table.complaint? name config <;> simp
  invalid_iff name config := by
    rw [← contains_iff, ← complaint?_eq_some_iff, value_create]
    cases hcontains : d.contains name with
    | true => simp
    | false => cases Table.complaint? name config <;> simp
  created_iff name config := by
    rw [← contains_iff, ← complaint?_eq_some_iff, value_create]
    cases hcontains : d.contains name with
    | true => simp
    | false => cases Table.complaint? name config <;> simp

/-- Whatever tables are made, named and freed, in any order and through any handles, the
directory keeps its promises. -/
theorem lawful_after (fleet : Fleet) (acts : List Act) :
    let start : Directory := { fleet }
    (acts.foldl act start).Lawful (start.record acts) := by
  intro start
  have hstart : start.Named [] :=
    ⟨List.nodup_nil, nofun, fun {name id} => iff_of_false nofun not_since_nil⟩
  exact (hstart.foldl_act acts).lawful

end Directory

end Dir248
