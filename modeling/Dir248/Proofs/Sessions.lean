import Dir248.Proofs.Calls

/-!
# Sessions do what their requests do

A caller may pass the handles it holds: those that calls handed out, less those it closed or freed.
In a consistent state all of these stand for tables, and so does every registered name, so that
every call of a session does what its request does, and the next state is consistent again.

* **`Directory.Founded`** — every registered name stands for a table; **`Founded.serve`** is the
  step.
* **`Calls.Consistent`** — so does every handle that is held; **`Consistent.call`** is the step, and
  **`Consistent.after`** the run.
* **`Calls.simulates`** — a session does what its requests do.
-/

namespace Dir248

namespace Directory

variable {d d' : Directory} {id : TableId}

/-! ### Names that stand for tables -/

/-- Every registered name stands for a table. -/
def Founded (d : Directory) : Prop :=
  ∀ name id, d.lookupName name = some id → (d.table? id).isSome = true

theorem Persists.isSome_table? (h : Persists d d') (hid : (d.table? id).isSome = true) :
    (d'.table? id).isSome = true := by
  obtain ⟨t, ht⟩ := Option.isSome_iff_exists.mp hid
  have hname : d'.nameOf? id = some t.name := h.nameOf (congrArg (Option.map Table.name) ht)
  obtain ⟨t', ht', -⟩ := Option.map_eq_some_iff.mp hname
  rw [ht', Option.isSome_some]

theorem Founded.persists (h : d.Founded) (hp : Persists d d') : d'.Founded := by
  intro name id hlookup
  rw [lookupName, hp.names] at hlookup
  exact hp.isSome_table? (h name id hlookup)

theorem table?_unregister (d : Directory) (id id' : TableId) :
    (d.unregister id).state.table? id' = d.table? id' := by
  unfold unregister
  split
  · rfl
  · split <;> rfl

theorem Founded.unregister (h : d.Founded) (id : TableId) : (d.unregister id).state.Founded := by
  intro name id' hlookup
  rw [table?_unregister]
  cases ht : d.table? id with
  | none => exact h name id' (by simpa [Directory.unregister, ht] using hlookup)
  | some t =>
    rw [lookupName_unregister d id t ht] at hlookup
    split at hlookup
    · cases hlookup
    · exact h name id' hlookup

/-- A directory that came about through the registry and the work of its tables is founded. -/
theorem Named.founded {log : List Deed} (h : d.Named log) : d.Founded := by
  intro name id hlookup
  have hown := h.own ((lookupName_eq_some_iff h.nodup).mp hlookup)
  obtain ⟨t, ht, -⟩ := Option.map_eq_some_iff.mp hown
  rw [ht, Option.isSome_some]

/-! ### Serving a request -/

/-- A directory to which a table of a new name was added. -/
def grown (d : Directory) (name : String) (config : Config) : Directory :=
  { d with
    tables := d.tables ++ [{ table := .empty name config }]
    names := (name, d.tables.length) :: d.names }

theorem isSome_grown (name : String) (config : Config) (hid : (d.table? id).isSome = true) :
    ((d.grown name config).table? id).isSome = true := by
  obtain ⟨t, ht⟩ := Option.isSome_iff_exists.mp hid
  obtain ⟨hosted, hh, -⟩ := Option.map_eq_some_iff.mp ht
  obtain ⟨hlt, -⟩ := List.getElem?_eq_some_iff.mp hh
  simp [grown, table?, List.getElem?_append_left hlt, hh]

theorem isSome_grown_new (d : Directory) (name : String) (config : Config) :
    ((d.grown name config).table? d.tables.length).isSome = true := by
  simp [grown, table?]

theorem Founded.grown (h : d.Founded) (name : String) (config : Config) :
    (d.grown name config).Founded := by
  intro name' id hlookup
  rw [lookupName, Directory.grown, List.lookup_cons] at hlookup
  split at hlookup
  · obtain rfl := Option.some.inj hlookup
    exact isSome_grown_new d name config
  · exact isSome_grown name config (h name' id hlookup)

/-- What a creation leaves: a new table that was handed out, or everything as it was. -/
theorem create_cases (d : Directory) (name : String) (config : Config) :
    (d.create name config).value = ⟨d.grown name config, .ok d.tables.length⟩ ∨
      ∃ e, (d.create name config).value = ⟨d, .error e⟩ := by
  rw [value_create]
  split
  · exact .inr ⟨_, rfl⟩
  · cases Table.complaint? name config with
    | some what => exact .inr ⟨_, rfl⟩
    | none => exact .inl rfl

/-- What serving a request does to the tables and their names: a table more and its name, a name
less, or nothing. -/
theorem serve_cases (d : Directory) (r : Request) :
    (∃ name config, (d.serve r).value.state = d.grown name config) ∨
      ∃ d', (d' = d ∨ ∃ id, d' = (d.unregister id).state) ∧
        Persists d' (d.serve r).value.state := by
  cases r with
  | create name config =>
    show (∃ name' config', (d.create name config).value.state = d.grown name' config') ∨
      ∃ d', _ ∧ Persists d' (d.create name config).value.state
    rcases create_cases d name config with hout | ⟨e, hout⟩ <;> rw [hout]
    · exact .inl ⟨name, config, rfl⟩
    · exact .inr ⟨d, .inl rfl, .refl d⟩
  | free id => exact .inr ⟨_, .inr ⟨id, rfl⟩, persists_free d id Calls.alone⟩
  | add id a depth nextHop =>
    exact .inr ⟨d, .inl rfl, persists_run d id (fun s => s.add a depth nextHop) fun s =>
      s.name_take (.write (.add a depth nextHop) Calls.alone)⟩
  | delete id a depth =>
    exact .inr ⟨d, .inl rfl, persists_run d id _ fun s => s.name_delete a depth Calls.alone⟩
  | deleteAll id =>
    exact .inr ⟨d, .inl rfl, persists_run d id (fun s => do
      let s ← s.deleteAll Calls.alone
      pure ⟨s, (.ok () : Except Failure Unit)⟩) fun _ => rfl⟩
  | find name => exact .inr ⟨d, .inl rfl, .refl d⟩
  | close id => exact .inr ⟨d, .inl rfl, .refl d⟩
  | present id a depth => exact .inr ⟨d, .inl rfl, .refl d⟩
  | lookup id a => exact .inr ⟨d, .inl rfl, .refl d⟩
  | bulk id addresses => exact .inr ⟨d, .inl rfl, .refl d⟩

/-- Serving a request loses no table. -/
theorem isSome_serve (r : Request) (hid : (d.table? id).isSome = true) :
    ((d.serve r).value.state.table? id).isSome = true := by
  rcases serve_cases d r with ⟨name, config, heq⟩ | ⟨d', rfl | ⟨id', rfl⟩, hp⟩
  · rw [heq]
    exact isSome_grown name config hid
  · exact hp.isSome_table? hid
  · exact hp.isSome_table? (by rwa [table?_unregister])

theorem Founded.serve (h : d.Founded) (r : Request) : (d.serve r).value.state.Founded := by
  rcases serve_cases d r with ⟨name, config, heq⟩ | ⟨d', rfl | ⟨id', rfl⟩, hp⟩
  · rw [heq]
    exact h.grown name config
  · exact h.persists hp
  · exact (h.unregister id').persists hp

/-- A handle that is handed out stands for a table. -/
theorem Founded.handle (h : d.Founded) {r : Request}
    (hr : (d.serve r).value.answer = some (.table (.ok id))) :
    ((d.serve r).value.state.table? id).isSome = true := by
  cases r with
  | create name config =>
    have hanswer : (d.create name config).value.answer = .ok id := by
      injection Option.some.inj hr
    show ((d.create name config).value.state.table? id).isSome = true
    rcases create_cases d name config with hout | ⟨e, hout⟩ <;> rw [hout] at hanswer ⊢
    · obtain rfl := Except.ok.inj hanswer
      exact isSome_grown_new d name config
    · cases hanswer
  | find name =>
    have hfind : d.find? name = .ok id := by injection Option.some.inj hr
    exact h name id (find?_eq_ok_iff.mp hfind)
  | close | free | add | delete | deleteAll | present | lookup | bulk =>
    obtain ⟨x, -, hx⟩ := Option.map_eq_some_iff.mp hr
    cases hx

end Directory

/-! ### Consistent states -/

namespace Calls

variable {parse? : String → Option Prefix} {s : Calls} {held : List TableId} {c : Call}
  {calls : List Call}

/-- Names and held handles stand for tables. -/
structure Consistent (s : Calls) (held : List TableId) : Prop where
  founded : s.directory.Founded
  held : ∀ id ∈ held, (s.directory.table? id).isSome = true

/-- A session may begin wherever the registry and the work of tables have led. -/
theorem Consistent.of_named {log : List Deed} (h : s.directory.Named log) : s.Consistent [] :=
  ⟨h.founded, nofun⟩

theorem Consistent.simulated (h : s.Consistent held) (hlive : ∀ id ∈ c.handle, id ∈ held) :
    c.Simulated parse? s :=
  Calls.simulated s c fun id hid => h.held id (hlive id hid)

/-- After a call a caller holds what it held, and at most the handle that came back. -/
theorem mem_holds {reply : Reply} {id : TableId} (hid : id ∈ c.holds held reply) :
    reply.handle = some id ∨ id ∈ held := by
  cases c with
  | create | findExisting => simpa [Call.holds] using hid
  | close h | free h =>
    cases h with
    | none => exact .inr hid
    | some id' => exact .inr (List.mem_of_mem_erase hid)
  | add | addCidr | delete | deleteAll | present | lookup | bulk => exact .inr hid

/-- A call that changes nothing and hands nothing out keeps a state consistent. -/
theorem Consistent.idle {status : Status} (h : s.Consistent held) (hidle : c.Idle parse? s status) :
    (s.call parse? c).value.state.Consistent (c.holds held (s.call parse? c).value.answer) := by
  refine ⟨hidle.directory ▸ h.founded, fun id hid => ?_⟩
  rw [hidle.directory]
  rcases mem_holds hid with hnew | hold
  · rw [hidle.answer] at hnew
    cases hnew
  · exact h.held id hold

/-- The handle that a served call hands out stands for a table, and no table is lost. -/
theorem Consistent.served {r : Request} (h : s.Consistent held) (hserves : c.Serves parse? s r) :
    (s.call parse? c).value.state.Consistent (c.holds held (s.call parse? c).value.answer) := by
  obtain ⟨result, hresult, hreports⟩ := hserves.result
  refine ⟨hserves.directory ▸ h.founded.serve r, fun id hid => ?_⟩
  rw [hserves.directory]
  rcases mem_holds hid with hnew | hold
  · rw [(hreports.handle id).mp hnew] at hresult
    exact h.founded.handle hresult
  · exact Directory.isSome_serve r (h.held id hold)

/-- Each call keeps a state consistent. -/
theorem Consistent.call (h : s.Consistent held) (hlive : ∀ id ∈ c.handle, id ∈ held) :
    (s.call parse? c).value.state.Consistent (c.holds held (s.call parse? c).value.answer) := by
  have hc : c.Simulated parse? s := h.simulated hlive
  cases hrequest : c.request parse? with
  | error status => exact h.idle (hc.refused status hrequest)
  | ok r =>
    cases r with
    | none => exact h.idle (hc.idle hrequest)
    | some r => exact h.served (hc.served r hrequest)

/-- Each call leaves the directory as its request does, if it stands for one. -/
theorem directory_call (hc : c.Simulated parse? s) : (s.call parse? c).value.state.directory =
    s.directory.served (c.request? parse?).toList := by
  unfold Call.request?
  cases hrequest : c.request parse? with
  | error status => exact (hc.refused status hrequest).directory
  | ok r =>
    cases r with
    | none => exact (hc.idle hrequest).directory
    | some r => exact (hc.served r hrequest).directory

/-! ### Whole sessions -/

/-- Wherever a session is cut, the state is consistent with the handles that are held then, the
directory is where the requests so far leave it, and the rest passes what is held. -/
theorem Consistent.after {rest : List Call} (h : s.Consistent held)
    (hlive : s.Live parse? held (calls ++ rest)) :
    (∃ held', (s.after parse? calls).Consistent held' ∧
        (s.after parse? calls).Live parse? held' rest) ∧
      (s.after parse? calls).directory =
        s.directory.served (calls.filterMap (Call.request? parse?)) := by
  induction calls generalizing s held with
  | nil => exact ⟨⟨held, h, hlive⟩, rfl⟩
  | cons c calls ih =>
    obtain ⟨hc, hlive⟩ := hlive
    obtain ⟨hrest, hdirectory⟩ := ih (h.call hc) hlive
    refine ⟨hrest, hdirectory.trans ?_⟩
    rw [directory_call (h.simulated hc)]
    cases hrequest : c.request? parse? with
    | none => rw [List.filterMap_cons_none hrequest]; rfl
    | some r => rw [List.filterMap_cons_some hrequest]; rfl

theorem answer_session_append (s : Calls) (calls more : List Call) :
    (s.session parse? (calls ++ more)).value.answer =
      (s.session parse? calls).value.answer ++
        ((s.after parse? calls).session parse? more).value.answer := by
  induction calls generalizing s with
  | nil => rfl
  | cons c calls ih => exact congrArg _ (ih _)

theorem length_session (s : Calls) (calls : List Call) :
    (s.session parse? calls).value.answer.length = calls.length := by
  induction calls generalizing s with
  | nil => rfl
  | cons c calls ih => exact congrArg (· + 1) (ih _)

/-- What comes back from a call in the middle of a session is what the call answers in the state
that it finds. -/
theorem answer_session (s : Calls) (before : List Call) (c : Call) (rest : List Call) :
    (s.session parse? (before ++ c :: rest)).value.answer[before.length]? =
      some ((s.after parse? before).call parse? c).value.answer := by
  rw [answer_session_append, List.getElem?_append_right (Nat.le_of_eq (length_session s before)),
    length_session, Nat.sub_self]
  rfl

/-- Whatever parser reads the prefixes in text, a session that passes null and the handles it holds
does what its requests do. Each call finds the directory where the requests so far leave it, changes
nothing when it fails its checks, and does and reports what its request does otherwise. What it
writes for many addresses are their answers, and it leaves the last status as its kind does. -/
theorem simulates (parse? : String → Option Prefix) (s : Calls) (held : List TableId)
    (calls : List Call) (h : s.Consistent held) (hlive : s.Live parse? held calls) :
    (s.after parse? calls).directory =
        s.directory.served (calls.filterMap (Call.request? parse?)) ∧
      ∀ before c rest, calls = before ++ c :: rest →
        let found := s.after parse? before
        found.directory = s.directory.served (before.filterMap (Call.request? parse?)) ∧
        (s.session parse? calls).value.answer[before.length]? =
          some (found.call parse? c).value.answer ∧
        c.Simulated parse? found ∧ c.Fills parse? found ∧ c.Recorded parse? found := by
  have hall : s.Live parse? held (calls ++ []) := by rwa [List.append_nil]
  refine ⟨(h.after hall).2, ?_⟩
  rintro before c rest rfl
  obtain ⟨⟨held', hbefore, hrest⟩, hdirectory⟩ := h.after hlive
  exact ⟨hdirectory, answer_session s before c rest, hbefore.simulated hrest.1,
    fills _ c, recorded _ c⟩

/-- Two handles to one table: the first is closed after its rules came from texts, of which one is
not UTF-8, and the second is freed after a bulk and a query. -/
def visit : List Call :=
  let name := some [0x65, 0x64, 0x67, 0x65]
  [.create name { maxRules := 2, groups := 1 } true,
    .addCidr (some 0) (some [0x31, 0x2e, 0x32, 0x2e, 0x30, 0x2e, 0x30, 0x2f, 0x31, 0x36]) 7,
    .addCidr (some 0) (some [0xff]) 8, .add none 0 16 8, .findExisting name, .close (some 0),
    .bulk (some 0) (some [0x01020304, 0x01030304]) true 2 9,
    .present (some 0) 0x01020000 16 true true, .free (some 0), .findExisting name]

theorem simulates_visit :
    Live Prefix.parse? {} [] visit ∧
      (({} : Calls).session Prefix.parse? visit).value.answer.map Reply.status =
        [some .success, some .success, some .utf8Error, some .invalidHandle, none, none,
          some .success, some .success, none, none] ∧
      (({} : Calls).after Prefix.parse? visit).directory =
        ({} : Directory).served (visit.filterMap (Call.request? Prefix.parse?)) ∧
      (Call.findExisting (some [0x65, 0x64, 0x67, 0x65])).Simulated Prefix.parse?
        (({} : Calls).after Prefix.parse? (visit.take 9)) := by
  have hstart : ({} : Directory).Named [] :=
    ⟨List.nodup_nil, nofun, fun {name id} => iff_of_false nofun not_since_nil⟩
  have hlive : Live Prefix.parse? {} [] visit := by decide +kernel
  obtain ⟨hdirectory, hcalls⟩ := simulates Prefix.parse? {} [] visit (.of_named hstart) hlive
  exact ⟨hlive, by decide +kernel, hdirectory, (hcalls _ _ [] rfl).2.2.1⟩

end Calls

end Dir248
