import Dir248.Proofs.Groups.Room
import Dir248.Proofs.Store.Histories
import Dir248.Proofs.Table.Histories

/-!
# Operations that fail

An addition that finds no group has moved rules about, has made a pass over the defer queue
and has taken everything back by the time it answers. Nobody can tell it from an operation
that was refused at once: the rules stand in the same order, lookups answer the same, and as
many groups are in use and pending as before.

* **`Table.Alike`** — two tables that answer all questions alike.
* **`Plane.insertDeep_error`**, **`Router.project_error`** — the only way the arrays cannot follow
  the store.
* **`Router.alike_project`** — what is left of an addition that was taken back.
* **`Router.alike_of_error`** — a failed operation leaves the table as it was.
-/

namespace Dir248

/-- Tables that answer alike: the same rules in the same order, the same lookups, the same
figures. -/
structure Table.Alike (t t' : Table) : Prop where
  rules : t'.rules.toList = t.rules.toList
  window : ∀ {d}, ValidDepth d → t'.rules.rulesAt d = t.rules.rulesAt d
  lookup : ∀ a, t'.lookup a = t.lookup a
  present : ∀ a depth, t'.present? a depth = t.present? a depth
  stats : t'.stats = t.stats

namespace Table

theorem Alike.refl (t : Table) : t.Alike t := ⟨rfl, fun _ => rfl, fun _ => rfl, fun _ _ => rfl, rfl⟩

theorem present?_eq (t : Table) (a : Address) (depth : Nat) : t.present? a depth =
    if ValidDepth depth then .ok (t.rules.toMap (.of a depth))
    else .error (.invalidArgument .depth) := by
  unfold present?
  split
  · next hd =>
    have hd' : ValidDepth (Prefix.of a depth).depth := hd
    rw [RuleStore.toMap_of_find? hd']
  · rfl

/-- What has to be compared. -/
theorem alike_of {t t' : Table} (hconfig : t'.config = t.config)
    (hwindow : ∀ {d}, ValidDepth d → t'.rules.rulesAt d = t.rules.rulesAt d)
    (hmap : t'.rules.toMap = t.rules.toMap) (hreads : t.arrays.SameReads t'.arrays)
    (hinUse : t'.pool.inUse = t.pool.inUse) (hpending : t'.pool.pending = t.pool.pending) :
    t.Alike t' := by
  have hrules : t'.rules.toList = t.rules.toList :=
    List.flatMap_congr fun d hd => hwindow ((mem_depths d).mp hd)
  have hsize : t'.rules.size = t.rules.size := by
    rw [← RuleStore.length_toList, hrules, RuleStore.length_toList]
  refine ⟨hrules, hwindow, fun a => ?_, fun a depth => ?_, ?_⟩
  · exact congrArg (Option.map Route.nextHop) (hreads.answer a)
  · rw [present?_eq, present?_eq, hmap]
  · rw [stats, stats, hsize, hconfig, hinUse, hpending]

end Table

namespace Plane

open Traced Arrays

/-- A deeper rule stays out when its bucket has no group and there is none to hand out. -/
theorem insertDeep_error_iff (p : Plane) (r : Rule) (e : Failure) :
    (p.insertDeep r).value.answer = .error e ↔
      ¬ p.arrays.Deep (bucket r.route.base) ∧ p.allocate.value.answer = .error e := by
  by_cases hgroup : p.arrays.Deep (bucket r.route.base)
  · obtain ⟨g, hg⟩ := hgroup
    rw [insertDeep_of_group hg]
    exact iff_of_false nofun fun h => h.1 ⟨g, hg⟩
  · rw [insertDeep_of_not_group (not_exists.mp hgroup), and_iff_right hgroup]
    obtain ⟨s, answer⟩ := p.allocate.value
    cases answer <;> simp

theorem insertDeep_error {p : Plane} {r : Rule} {e : Failure}
    (h : (p.insertDeep r).value.answer = .error e) :
    (p.insertDeep r).value.state = p.allocate.value.state := by
  obtain ⟨hno, hanswer⟩ := (insertDeep_error_iff p r e).mp h
  rw [insertDeep_of_not_group (not_exists.mp hno)]
  generalize p.allocate.value = out at hanswer ⊢
  obtain ⟨s, answer⟩ := out
  cases hanswer
  rfl

end Plane

namespace Router

open Arrays Plane Traced

variable {s : Router} {m : RuleMap}

/-! ### Additions -/

/-- The arrays can follow the store but for a deeper rule that finds no group. -/
theorem project_error_iff (s : Router) (r : Rule) (stored : Stored) (outcome : AddOutcome)
    (e : Failure) : (s.project r stored outcome).value.answer = .error e ↔
      bucketDepth < r.route.depth ∧ ¬ s.table.arrays.Deep (bucket r.route.base) ∧
        s.plane.allocate.value.answer = .error e := by
  unfold project
  split
  · next hd =>
    rw [value_bind, value_added]
    exact iff_of_false nofun fun h => Nat.not_lt_of_le hd h.1
  · next hd =>
    rw [and_iff_right (Nat.lt_of_not_le hd), value_bind,
      show s.table.arrays = s.plane.arrays from rfl, ← insertDeep_error_iff]
    obtain ⟨p, answer⟩ := (s.plane.insertDeep r).value
    cases answer with
    | ok u =>
      show ((s.setPlane p).added r outcome).value.answer = _ ↔ _
      rw [value_added]
      exact iff_of_false nofun nofun
    | error e' => simp

/-- What an addition leaves that the arrays could not follow. -/
theorem project_error {r : Rule} {stored : Stored} {outcome : AddOutcome} {e : Failure}
    (h : (s.project r stored outcome).value.answer = .error e) :
    (s.project r stored outcome).value.state = (s.setPlane s.plane.allocate.value.state).setRules
      (undo s.table.rules r.route.depth stored).value := by
  obtain ⟨hd, hno, hanswer⟩ := (project_error_iff ..).mp h
  have herror := (insertDeep_error_iff s.plane r e).mpr ⟨hno, hanswer⟩
  have hstate := insertDeep_error herror
  unfold project
  rw [if_neg (Nat.not_le_of_lt hd), value_bind]
  generalize (s.plane.insertDeep r).value = out at herror hstate ⊢
  obtain ⟨p, answer⟩ := out
  cases herror
  rw [← hstate]
  rfl

/-- A bucket with a stored deep rule has a group. -/
theorem Holds.deep_of_mem (h : s.Holds m) {p : Prefix} {hop : Nat} (hp : m p = some hop)
    (hd : bucketDepth < p.depth) : s.table.arrays.Deep (bucket p.base) :=
  (h.realizes.deep (bucket_lt p.base)).mpr ⟨p, hop, hp, hd, rfl⟩

/-- An addition that was taken back. -/
theorem alike_project (h : s.Holds m) (hc : s.plane.desk.Clean) {r : Rule} (hr : r.route.IsBlock)
    {rules : RuleStore} {stored : Stored} (hadded : s.table.rules.Added r ⟨rules, .ok stored⟩)
    {outcome : AddOutcome} {e : Failure}
    (he : ((s.setRules rules).project r stored outcome).value.answer = .error e) :
    s.table.Alike ((s.setRules rules).project r stored outcome).value.state.table := by
  obtain ⟨hd, hno, hanswer⟩ := (project_error_iff ..).mp he
  obtain ⟨hinUse, hpending⟩ := allocate_error_keeps h.accounted hc hanswer
  have hreads : s.table.arrays.SameReads s.plane.allocate.value.state.arrays :=
    sameReads_of_chain (allocate_moves s.plane) h.accounted.orderly
  have hundone := (hadded.undo h.wellFormed hr).2
  -- a rule that was stored before has a group already
  have hnew : ∀ {hop}, s.table.rules.toMap r.route ≠ some hop := by
    intro hop hmap
    rw [h.toMap] at hmap
    exact hno (h.deep_of_mem hmap hd)
  rw [project_error he]
  refine Table.alike_of rfl (fun hvalid => ?_) hundone hreads hinUse hpending
  cases hadded with
  | known hmap => exact absurd hmap hnew
  | changed _ _ hmap => exact absurd hmap hnew
  | fresh _ _ hroom => exact h.wellFormed.packed.rulesAt_remove_insert hr.depth hroom hvalid

theorem alike_addRule (h : s.Holds m) (hc : s.plane.desk.Clean) {r : Rule} (hr : r.route.IsBlock)
    {e : Failure} (he : (s.addRule r).value.answer = .error e) :
    s.table.Alike (s.addRule r).value.state.table := by
  have hadded := s.table.rules.added_add hr.depth
  unfold addRule at he ⊢
  rw [value_bind] at he ⊢
  generalize (s.table.rules.add r).value = out at he hadded ⊢
  obtain ⟨rules, answer⟩ := out
  cases answer with
  | error e' =>
    cases hadded
    exact .refl s.table
  | ok stored =>
    cases stored with
    | unchanged => cases he
    | inserted place => exact alike_project h hc hr hadded he
    | updated place previous => exact alike_project h hc hr hadded he

theorem alike_add (h : s.Holds m) (hc : s.plane.desk.Clean) {a : Address} {depth nextHop : Nat}
    {e : Failure} (he : (s.add a depth nextHop).value.answer = .error e) :
    s.table.Alike (s.add a depth nextHop).value.state.table := by
  revert he
  unfold add
  split
  · exact fun _ => .refl s.table
  · next hd =>
    split
    · exact fun _ => .refl s.table
    · exact alike_addRule h hc (Prefix.isBlock_of a (Decidable.not_not.mp hd))

/-! ### Removals -/

/-- A rule that was found goes, whatever becomes of its group. -/
theorem released_withdraw (s : Router) (route : Prefix) (cover : Option Route)
    (meanwhile : Meanwhile) : Released (s.withdraw route cover meanwhile).value.answer := by
  unfold withdraw
  split
  · exact .inl rfl
  · exact released_removeDeep s.plane route cover meanwhile

theorem alike_delete {a : Address} {depth : Nat} {meanwhile : Meanwhile} {e : Failure}
    (he : (s.delete a depth meanwhile).value.answer = .error e)
    (hne : e ≠ .reclamationUnavailable) :
    s.table.Alike (s.delete a depth meanwhile).value.state.table := by
  revert he
  unfold delete
  split
  · exact fun _ => .refl s.table
  · split
    · exact fun _ => .refl s.table
    · next place hplace =>
      intro he
      have hreleased : Released (s.deleteAt place (.of a depth) meanwhile).value.answer :=
        released_withdraw ..
      rw [he] at hreleased
      rcases hreleased with hok | hfull
      · cases hok
      · cases hfull
        exact absurd rfl hne

/-! ### Histories -/

/-- In every state an addition that fails leaves the table as it was, and so does a removal
that is refused or finds no rule. -/
theorem alike_of_error (name : String) (config : Config) (hgroups : config.groups ≤ maxGroups)
    (maxReaders : Nat) (turns : List Turn) :
    let s := (fresh name config maxReaders).after turns
    (∀ a depth nextHop e, (s.add a depth nextHop).value.answer = .error e →
      s.table.Alike (s.add a depth nextHop).value.state.table) ∧
    ∀ a depth meanwhile e, (s.delete a depth meanwhile).value.answer = .error e →
      e ≠ .reclamationUnavailable →
        s.table.Alike (s.delete a depth meanwhile).value.state.table := by
  intro s
  have hholds : s.Holds _ := holds_fresh_run name hgroups maxReaders turns
  have hclean : s.plane.desk.Clean := clean_fresh_after name hgroups maxReaders turns
  exact ⟨fun a depth nextHop e he => alike_add hholds hclean he,
    fun a depth meanwhile e he hne => alike_delete he hne⟩

/-- One group serves its bucket, one waits in the full queue and one is stranded. -/
def exhaustion : List Turn :=
  [.write (.bind (.defer 1 1 1)) fun _ => [], .read .register, .read (.online 0),
    .write (.add 0x0A000001 32 7) fun _ => [], .write (.add 0x0A000004 30 6) fun _ => [],
    .write (.add 0x0A000101 32 8) fun _ => [], .write (.add 0x0A000201 32 9) fun _ => [],
    .write (.delete 0x0A000101 32) fun _ => [], .write (.delete 0x0A000201 32) fun _ => []]

/-- A table whose groups are all in use while a reader stays inside. -/
def exhausted : Router := (fresh "edge" ⟨8, 3⟩ 1).after exhaustion

theorem exhausted_eq : exhausted = (fresh "edge" ⟨8, 3⟩ 1).after exhaustion := rfl

-- the state is computed by the kernel only
attribute [irreducible] exhausted

/-- A rule for another bucket stays out, and the rules of deeper windows are back in place. -/
theorem alike_of_error_exhausted :
    (exhausted.add 0x0A000301 28 5).value.answer = .error .outOfSpace ∧
      exhausted.table.Alike (exhausted.add 0x0A000301 28 5).value.state.table := by
  have hfails : (exhausted.add 0x0A000301 28 5).value.answer = .error .outOfSpace := by
    decide +kernel
  refine ⟨hfails, ?_⟩
  rw [exhausted_eq] at hfails ⊢
  exact (alike_of_error "edge" ⟨8, 3⟩ (by decide) 1 exhaustion).1 _ _ _ _ hfails

end Router

end Dir248
