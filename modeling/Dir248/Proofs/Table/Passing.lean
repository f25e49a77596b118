import Dir248.Proofs.Arrays.Stores
import Dir248.Proofs.Table.Histories
import Dir248.Proofs.Table.Replays

/-!
# What readers see while the writer works

A reader may look up between any two stores of an operation. In all operations there is one
phase that readers notice, and it shows each address its new answer at one moment: a sweep, or
the one store by which a bucket comes to its filled group. What comes before and after it, the
stores that claim, fill and free groups, goes to groups that no bucket names.

* **`Traced.Passes`**, **`Traced.Unseen`** — a computation that shows each address its old answer
  until it shows the new one, and one that shows nothing at all.
* **`Plane.unseen_of_pool`** — readers see nothing of the pool.
* **`Plane.insertShallow_passes`** to **`Plane.removeDeep_passes`** — the four ways through the
  arrays.
* **`Router.lookup_between_stores`** — every lookup between two stores of a command.
-/

namespace Dir248

open Arrays

namespace Traced

/-! ### Computations between two stores -/

section Phases

variable {α β : Type} {t : Arrays} {x : Traced α} {k : α → Traced β} {f : α → Arrays}
  {h : β → Arrays}

theorem stores_bind (x : Traced α) (k : α → Traced β) :
    (x >>= k).stores = x.stores ++ (k x.value).stores := Event.stores_append ..

theorem Quiet.stores (hx : x.Quiet) : x.stores = [] :=
  Event.stores_of_no_write fun e he => (hx e he).write?

/-- Between any two stores each address has its answer in `t` or the one in the end. -/
def Passes (t : Arrays) (x : Traced α) (f : α → Arrays) : Prop := t.Passes x.stores (f x.value)

/-- No lookup between any two stores, and none in the end, tells the arrays from `t`. -/
structure Unseen (t : Arrays) (x : Traced α) (f : α → Arrays) : Prop where
  passes : Passes t x f
  answer : ∀ a, (f x.value).answer a = t.answer a

theorem Passes.bind (hx : Passes t x f) (hk : Passes (f x.value) (k x.value) h)
    (hmid : ∀ a, (f x.value).answer a = t.answer a ∨
      (f x.value).answer a = (h (k x.value).value).answer a) : Passes t (x >>= k) h := by
  unfold Passes
  rw [stores_bind]
  exact Arrays.Passes.append hx hk hmid

theorem Passes.then_unseen (hx : Passes t x f) (hk : Unseen (f x.value) (k x.value) h) :
    Passes t (x >>= k) h :=
  hx.bind hk.passes fun a => .inr (hk.answer a).symm

theorem Unseen.then_passes (hx : Unseen t x f) (hk : Passes (f x.value) (k x.value) h) :
    Passes t (x >>= k) h :=
  hx.passes.bind hk fun a => .inl (hx.answer a)

theorem Unseen.bind (hx : Unseen t x f) (hk : Unseen (f x.value) (k x.value) h) :
    Unseen t (x >>= k) h :=
  ⟨hx.then_passes hk.passes, fun a => (hk.answer a).trans (hx.answer a)⟩

theorem Passes.reduced (hx : Passes t x f) (hr : t.Reduced) : (f x.value).Reduced :=
  Arrays.Passes.reduced hx hr

theorem unseen_of_no_stores (hx : x.stores = []) (heq : f x.value = t) : Unseen t x f := by
  refine ⟨?_, fun a => by rw [heq]⟩
  unfold Passes
  rw [hx, heq]
  exact passes_nil t

theorem unseen_quiet (hx : x.Quiet) (heq : f x.value = t) : Unseen t x f :=
  unseen_of_no_stores hx.stores heq

theorem unseen_pure {a : α} (heq : f a = t) : Unseen t (pure a) f := unseen_of_no_stores rfl heq

theorem passes_pure {a : α} (heq : f a = t) : Passes t (pure a) f := (unseen_pure heq).passes

theorem passes_emit {e : Event} (he : e.write? = none) {k : Unit → Traced β}
    (hk : Passes t (k ()) h) : Passes t (emit e >>= k) h := by
  have hemit : Unseen t (emit e) fun _ => t :=
    unseen_of_no_stores (Event.stores_of_no_write fun e' he' => by
      rw [List.mem_singleton.mp he', he]) rfl
  exact hemit.then_passes hk

theorem passes_log {n : Note} {k : Unit → Traced β} (hk : Passes t (k ()) h) :
    Passes t (log n >>= k) h := passes_emit rfl hk

theorem unseen_log {n : Note} {k : Unit → Traced β} (hk : Unseen t (k ()) h) :
    Unseen t (log n >>= k) h := ⟨passes_log hk.passes, hk.answer⟩

end Phases

/-! ### Stores -/

section Stores

variable {t : Arrays}

theorem stores_store (t : Arrays) (w : Write) : (t.store w).stores = w.each := by
  obtain ⟨es, hevents, hquiet⟩ := events_store t w
  rw [stores, hevents, Event.stores_append, Event.stores_write,
    Event.stores_of_no_write fun e he => (hquiet e he).write?, List.nil_append]

theorem passes_store (hr : t.Reduced) (w : Write) : Passes t (t.store w) fun t => t := by
  unfold Passes
  rw [stores_store]
  exact passes_each hr w

theorem unseen_store (hr : t.Reduced) {w : Write} (h : SameReads t (t.apply w)) :
    Unseen t (t.store w) fun t => t :=
  ⟨passes_store hr w, h.answer⟩

end Stores

end Traced

/-! ### Moves of the pool -/

section Pool

variable {d d' : Desk} {es : List Event}

theorem Event.stores_around {es es' : List Event} (w : Write) (h : ∀ e ∈ es, e.write? = none)
    (h' : ∀ e ∈ es', e.write? = none) : stores (es ++ .write w :: es') = w.each := by
  rw [stores_append, stores_of_no_write h, List.nil_append,
    show Event.write w :: es' = [.write w] ++ es' from rfl, stores_append, stores_write,
    stores_of_no_write h', List.append_nil]

theorem PoolMove.passes (h : PoolMove d es d') (hr : d.plane.arrays.Reduced) :
    d.plane.arrays.Passes (Event.stores es) d'.plane.arrays := by
  cases h with
  | quiet h =>
    rw [Event.stores_of_no_write fun e he => (h e he).write?]
    exact passes_nil _
  | wait meanwhile =>
    rw [Event.stores_of_no_write fun e he => ?_]
    · exact passes_nil _
    · obtain hquiet | ⟨step, rfl⟩ := mem_synchronize he
      · exact hquiet.write?
      · rfl
  | @free p _ _ g =>
    obtain ⟨es, es', hevents, h1, h2⟩ := events_free p g
    rw [hevents, Event.stores_around _ (fun e he => (h1 e he).write?) fun e he => (h2 e he).write?]
    exact passes_each hr _
  | @claim p _ _ g =>
    obtain ⟨es, es', n, hevents, h1, h2⟩ := events_claim p g
    rw [hevents, Event.stores_around _ (fun e he => (h1 e he).write?) fun e he => ?_]
    · exact passes_each hr _
    · rcases List.mem_append.mp he with he | he
      · exact (h2 e he).write?
      · rw [List.mem_singleton.mp he]
        rfl
  | _ => exact passes_nil _

/-- Between any two stores of the pool an address is answered as before. -/
theorem passes_of_chain (h : Chain PoolMove d es d') (ha : d.Accounted)
    (hr : d.plane.arrays.Reduced) :
    d.plane.arrays.Passes (Event.stores es) d'.plane.arrays := by
  induction h with
  | nil d => exact passes_nil _
  | cons hmove _ ih =>
    have hfirst := hmove.passes hr
    rw [Event.stores_append]
    refine hfirst.append (ih (hmove.accounted ha) (hfirst.reduced hr)) fun a => ?_
    exact .inl ((hmove.sameReads ha.orderly).answer a)

end Pool

namespace Plane

open Traced

variable {p : Plane}

/-- Readers see nothing of the pool. -/
theorem unseen_of_pool {α : Type} {x : Traced α} {d : Desk} {f : α → Desk}
    (h : Leads PoolMove d x f) (ha : d.Accounted) (hr : d.plane.arrays.Reduced) :
    Unseen d.plane.arrays x fun a => (f a).plane.arrays :=
  ⟨passes_of_chain h ha hr, (sameReads_of_chain h ha.orderly).answer⟩

theorem unseen_report {β : Type} {t : Arrays} {k : Unit → Traced β} {h : β → Arrays}
    (hk : Unseen t (k ()) h) : Unseen t (p.report >>= k) h := by
  have hreport : Unseen t p.report fun _ => t :=
    unseen_quiet (Quiet.bind (quiet_require _ _) (quiet_publish _)) rfl
  exact hreport.bind hk

/-! ### Sweeps -/

section Sweep

variable {onEntry : Entry → Option Entry} {onSlot : Slot → Option Slot} {lo hi : Nat}

/-- A sweep of buckets stores to every slot what it holds in the end. -/
theorem sweepBuckets_passes (hr : p.arrays.Reduced) (hplain : Entry.Plain onEntry)
    (hidem : Slot.Idem onSlot) (hkeep : KeepsBit onSlot) (hlo : lo ≤ hi) (hhi : hi ≤ bucketCount) :
    Passes p.arrays (p.arrays.sweepBuckets lo hi onEntry onSlot) fun t => t := by
  have hmoves := sweepBuckets_moves hplain hkeep hlo hhi p [] []
  refine passes_of_agrees hr (agrees_sweepBuckets p.arrays hplain hidem hlo hhi)
    (replay_of_chain hmoves).symm (steady_of_names fun hi' => ?_)
  exact entryAt_sweepBuckets_eq_group hplain hlo hhi hi'

/-- So does a sweep of slots inside a group. -/
theorem sweepSlots_passes {g : Nat} (hr : p.arrays.Reduced) (hkeep : KeepsBit onSlot)
    (hgroup : groupStart g ≤ lo) (hlo : lo ≤ hi) (hhi : hi ≤ groupStart g + groupSize)
    (hname : p.arrays.Names g) :
    Passes p.arrays (p.arrays.sweepSlots lo hi onSlot) fun t => t := by
  have hmoves := sweepSlots_moves hkeep hgroup hlo hhi p hname [] []
  obtain ⟨i, -, hg⟩ := hname
  have hend := groupStart_add_le (Entry.group_lt hg)
  refine passes_of_agrees hr (agrees_sweepSlots hlo (by omega) fun j h1 h2 => ?_)
    (replay_of_chain hmoves).symm (steady_of_names fun {i g'} _ => ?_)
  · rw [slotAt_sweepSlots _ _ _ _ hlo (by omega) j (by omega), if_pos ⟨h1, h2⟩]
    rfl
  · rw [entryAt, buckets_sweepSlots]
    rfl

end Sweep

/-! ### Rules in the arrays -/

theorem insertShallow_passes (hr : p.arrays.Reduced) {r : Rule} (hb : r.route.IsBlock)
    (hd : r.route.depth ≤ bucketDepth) (hf : r.answer.Fits) :
    Passes p.arrays (p.insertShallow r) Plane.arrays := by
  have hsweep := sweepBuckets_passes hr (Entry.plain_claim r.answer) (Slot.idem_claim hf)
    (keepsBit_claim r.answer) (Prefix.bucketRange_fst_le r.route) (Prefix.bucketRange_le hb hd)
  exact hsweep.then_unseen (unseen_log (unseen_pure rfl))

theorem removeShallow_passes (hr : p.arrays.Reduced) {route : Prefix} (hb : route.IsBlock)
    (hd : route.depth ≤ bucketDepth) {cover : Option Route} (hc : Covering cover route.depth) :
    Passes p.arrays (p.removeShallow route cover) Plane.arrays := by
  have hsweep := sweepBuckets_passes hr (Entry.plain_cede route.depth cover) hc.idem
    (keepsBit_cede route.depth cover) (Prefix.bucketRange_fst_le route)
    (Prefix.bucketRange_le hb hd)
  exact hsweep.then_unseen (unseen_pure rfl)

/-- A fresh group is filled unseen, and one store links it. -/
theorem linkGroup_passes (hr : p.arrays.Reduced) {g : Nat} (hg : ¬ p.arrays.Names g)
    (current : Entry) {r : Rule} (hb : r.route.IsBlock) (hd : bucketDepth < r.route.depth) :
    Passes p.arrays (p.linkGroup g current r) Plane.arrays := by
  obtain ⟨h1, -, h3⟩ := slotRange_within hb hd g
  -- what comes after the inherited answers
  have hrest : ∀ t : Arrays, t.Reduced → ¬ t.Names g → Passes t (do
      let filled ← t.store
        (.slots (groupStart g + offset r.route.base) (span r.route.depth) (.leaf r.answer))
      let arrays ← filled.store (.buckets (bucket r.route.base) 1 (.group g))
      Traced.log (.groupLinked g (bucket r.route.base))
      pure { p with arrays }) Plane.arrays := by
    intro t ht hno
    have hfill := unseen_store ht (sameReads_apply (.leaf r.answer) hno h1 h3)
    have hlink := passes_store (hfill.passes.reduced ht)
      (.buckets (bucket r.route.base) 1 (.group g))
    exact hfill.then_passes (hlink.then_unseen (unseen_log (unseen_pure rfl)))
  unfold linkGroup
  cases current with
  | leaf q =>
    have hsame := sameReads_apply (.leaf q) hg (Nat.le_refl _) (Nat.le_refl _)
    have hinherit := unseen_store hr hsame
    refine hinherit.then_passes (hrest _ (hinherit.passes.reduced hr) ?_)
    exact mt (hsame.names g).mp hg
  | invalid => exact hrest p.arrays hr hg
  | group g' => exact hrest p.arrays hr hg

theorem insertDeep_passes (hr : p.arrays.Reduced) (ha : p.desk.Accounted) {r : Rule}
    (hb : r.route.IsBlock) (hd : bucketDepth < r.route.depth) :
    Passes p.arrays (p.insertDeep r) fun out => out.state.arrays := by
  unfold insertDeep
  split
  · next g hg =>
    obtain ⟨h1, h2, h3⟩ := slotRange_within hb hd g
    have hsweep := sweepSlots_passes hr (keepsBit_claim r.answer) h1 h2 h3 ⟨_, bucket_lt _, hg⟩
    exact hsweep.then_unseen (unseen_pure rfl)
  · next current _ =>
    have hmoves := allocate_moves p
    have hallocate := unseen_of_pool hmoves ha hr
    have haccount := accounted_of_chain hmoves ha
    refine hallocate.then_passes ?_
    have hreduced := hallocate.passes.reduced hr
    generalize p.allocate.value = out at haccount hreduced ⊢
    obtain ⟨s, answer⟩ := out
    cases answer with
    | error e => exact passes_pure rfl
    | ok g =>
      have hmem : g ∈ (Desk.mk s s.pool.stranded [g]).away :=
        Desk.mem_away_of_safe List.mem_cons_self
      have hlink := linkGroup_passes hreduced (haccount.not_names hmem)
        (p.arrays.entryAt (bucket r.route.base)) hb hd
      refine hlink.then_unseen ?_
      exact unseen_pure rfl

/-- The slots of a rule fall to its cover; that their group is folded and freed is not seen. -/
theorem removeDeep_passes (hr : p.arrays.Reduced) (ha : p.desk.Accounted) {route : Prefix}
    (hb : route.IsBlock) (hd : bucketDepth < route.depth) (cover : Option Route)
    (meanwhile : Meanwhile) :
    Passes p.arrays (p.removeDeep route cover meanwhile) fun out => out.state.arrays := by
  unfold removeDeep
  split
  · next g hg =>
    obtain ⟨h1, h2, h3⟩ := slotRange_within hb hd g
    have hlt := Entry.group_lt hg
    have hblt := bucket_lt route.base
    have hsweep := sweepSlots_passes hr (keepsBit_cede route.depth cover) h1 h2 h3
      ⟨_, hblt, hg⟩
    have hreduced := hsweep.reduced hr
    refine hsweep.then_unseen ?_
    have hentry : (swept p.arrays route cover g).entryAt (bucket route.base) = .group g :=
      (entryAt_swept _).trans hg
    split
    · exact unseen_pure rfl
    · next left hleft =>
      obtain ⟨q, rfl, hfold⟩ := (foldedEntry_verdict _ hlt left).mp hleft
      have hfits : ∀ c, q = some c → c.Fits := by
        intro c hc
        exact fits_of_answer ((hfold.2 0 (by decide)).trans hc)
      have haccount : (p.setArrays (swept p.arrays route cover g)).desk.Accounted :=
        Account.within ha (swept_within hb hd hlt)
      have hunlink : Unseen (swept p.arrays route cover g) ((swept p.arrays route cover g).store
          (.buckets (bucket route.base) 1 (.ofRoute q))) fun t => t :=
        ⟨passes_store hreduced _, answer_fold hentry hfold hfits⟩
      have hreleased := unseen_of_pool (release_moves _ g meanwhile)
        (accounted_unlinked haccount hblt hentry
          (Entry.cut_ne_group (Entry.ofRoute_ne_group q))) (hunlink.passes.reduced hreduced)
      exact hunlink.bind (unseen_log hreleased)
  · exact passes_emit rfl (passes_log (passes_pure rfl))

/-- Once no bucket names a group, nothing of a fresh start is seen. -/
theorem reset_unseen (hr : p.arrays.Reduced) {held : List Nat}
    (ha : Desk.Accounted ⟨p, held, []⟩) (hno : ∀ g, ¬ p.arrays.Names g) (meanwhile : Meanwhile) :
    Unseen p.arrays (p.reset meanwhile) Plane.arrays := by
  have hwait := synchronizeIfBound_moves p held [] [] meanwhile
  rw [List.append_nil] at hwait
  have hsync := unseen_of_pool hwait ha hr
  have haccount1 := accounted_of_chain hwait ha
  have hreduced1 := hsync.passes.reduced hr
  have hno1 : ∀ g, ¬ (p.synchronizeIfBound meanwhile).value.arrays.Names g :=
    fun g => mt (names_of_buckets (buckets_of_chain hwait) g).mp (hno g)
  unfold reset
  refine hsync.bind ?_
  generalize (p.synchronizeIfBound meanwhile).value = p1 at haccount1 hreduced1 hno1 ⊢
  have hdrain := drainQueue_moves p1 [] held meanwhile
  have hempty := unseen_of_pool hdrain haccount1 hreduced1
  have hreduced2 := hempty.passes.reduced hreduced1
  have hno2 : ∀ g, ¬ (p1.drainQueue meanwhile).value.state.arrays.Names g :=
    fun g => mt (names_of_buckets (buckets_of_chain hdrain) g).mp (hno1 g)
  refine hempty.bind ?_
  generalize (p1.drainQueue meanwhile).value = emptied at hreduced2 hno2 ⊢
  have hwipe : Unseen emptied.state.arrays emptied.state.arrays.clearSlots fun t => t :=
    unseen_store hreduced2 ⟨rfl, rfl, fun {g} hg _ _ => absurd hg (hno2 g)⟩
  refine hwipe.bind ?_
  exact unseen_report (unseen_pure rfl)

end Plane

namespace Router

open Traced Plane

variable {s : Router} {m : RuleMap}

/-! ### Commands -/

theorem added_unseen (s : Router) (r : Rule) (outcome : AddOutcome) :
    Unseen s.table.arrays (s.added r outcome) fun out => out.state.table.arrays := by
  refine unseen_of_no_stores ?_ (by rw [value_added])
  cases outcome <;> rfl

theorem project_passes (hr : s.table.arrays.Reduced) (ha : s.plane.desk.Accounted) {r : Rule}
    (hb : r.route.IsBlock) (hf : r.answer.Fits) (stored : Stored) (outcome : AddOutcome) :
    Passes s.table.arrays (s.project r stored outcome) fun out => out.state.table.arrays := by
  unfold project
  split
  · next hd =>
    have hinsert : Passes s.table.arrays (s.plane.insertShallow r) Plane.arrays :=
      insertShallow_passes (p := s.plane) hr hb hd hf
    exact hinsert.then_unseen (added_unseen (s.setPlane (s.plane.insertShallow r).value) r outcome)
  · next hd =>
    have hinsert : Passes s.table.arrays (s.plane.insertDeep r) fun out => out.state.arrays :=
      insertDeep_passes hr ha hb (Nat.lt_of_not_le hd)
    refine hinsert.then_unseen ?_
    generalize (s.plane.insertDeep r).value = out
    obtain ⟨p, answer⟩ := out
    cases answer with
    | ok u => exact added_unseen (s.setPlane p) r outcome
    | error e =>
      have hundo : Unseen p.arrays (undo s.table.rules r.route.depth stored) fun _ => p.arrays :=
        unseen_quiet (quiet_undo _ _ _) rfl
      exact hundo.bind (unseen_log (unseen_pure rfl))

theorem addRule_passes (hr : s.table.arrays.Reduced) (ha : s.plane.desk.Accounted) {r : Rule}
    (hb : r.route.IsBlock) (hf : r.answer.Fits) :
    Passes s.table.arrays (s.addRule r) fun out => out.state.table.arrays := by
  have hstore : Unseen s.table.arrays (s.table.rules.add r) fun _ => s.table.arrays :=
    unseen_quiet (quiet_add _ _) rfl
  unfold addRule
  refine hstore.then_passes ?_
  generalize (s.table.rules.add r).value = out
  obtain ⟨rules, answer⟩ := out
  cases answer with
  | error e => exact passes_log (passes_pure rfl)
  | ok stored =>
    cases stored with
    | unchanged => exact passes_log (passes_pure rfl)
    | inserted place => exact project_passes (s := s.setRules rules) hr ha hb hf _ _
    | updated place previous => exact project_passes (s := s.setRules rules) hr ha hb hf _ _

theorem add_passes (hr : s.table.arrays.Reduced) (ha : s.plane.desk.Accounted) (a : Address)
    (depth nextHop : Nat) :
    Passes s.table.arrays (s.add a depth nextHop) fun out => out.state.table.arrays := by
  unfold add
  split
  · exact passes_pure rfl
  · next hd =>
    split
    · exact passes_pure rfl
    · next hh =>
      have hb := Prefix.isBlock_of a (Decidable.not_not.mp hd)
      exact addRule_passes hr ha hb (fits_answer hb (Nat.le_of_not_lt hh))

theorem withdraw_passes (hr : s.table.arrays.Reduced) (ha : s.plane.desk.Accounted)
    {route : Prefix} (hb : route.IsBlock) {cover : Option Route} (hc : Covering cover route.depth)
    (meanwhile : Meanwhile) :
    Passes s.table.arrays (s.withdraw route cover meanwhile) fun out => out.state.table.arrays := by
  unfold withdraw
  split
  · next hd =>
    have hremove : Passes s.table.arrays (s.plane.removeShallow route cover) Plane.arrays :=
      removeShallow_passes (p := s.plane) hr hb hd hc
    exact hremove.then_unseen (unseen_pure rfl)
  · next hd =>
    have hremove : Passes s.table.arrays (s.plane.removeDeep route cover meanwhile)
        fun out => out.state.arrays :=
      removeDeep_passes hr ha hb (Nat.lt_of_not_le hd) cover meanwhile
    exact hremove.then_unseen (unseen_pure rfl)

/-- The cover of a rule that is gone can take its place. -/
theorem covering_cover? {rules : RuleStore} (hv : rules.toMap.Valid) {q : Prefix}
    (hq : q.IsBlock) : Covering (cover? rules q) q.depth := by
  rw [cover?_eq_best rules hq]
  exact covering_best hv hq

theorem delete_passes (hr : s.table.arrays.Reduced) (h : s.Holds m) (a : Address) (depth : Nat)
    (meanwhile : Meanwhile) :
    Passes s.table.arrays (s.delete a depth meanwhile) fun out => out.state.table.arrays := by
  unfold delete
  split
  · exact passes_pure rfl
  · next hd =>
    have hb := Prefix.isBlock_of a (Decidable.not_not.mp hd)
    split
    · exact passes_pure rfl
    · next place hplace =>
      have hmap : (s.table.rules.remove place depth).toMap = _ := h.toMap_remove hb hplace
      have hvalid : (s.table.rules.remove place depth).toMap.Valid := by
        rw [hmap]
        exact h.valid.erase _
      have hchecked : Unseen s.table.arrays
          (require (s.table.rules.canRemove place depth) .ruleMove) fun _ => s.table.arrays :=
        unseen_quiet (quiet_require _ _) rfl
      have hwithdraw := withdraw_passes (s := s.setRules (s.table.rules.remove place depth)) hr
        h.accounted hb (covering_cover? hvalid hb) meanwhile
      exact hchecked.then_passes (passes_emit rfl (passes_log hwithdraw))

/-- Every bucket is emptied before anything else, and the rest is not seen. -/
theorem deleteAll_passes (hr : s.table.arrays.Reduced) (ha : s.plane.desk.Accounted)
    (meanwhile : Meanwhile) :
    Passes s.table.arrays (s.deleteAll meanwhile) fun s => s.table.arrays := by
  obtain ⟨gs, hgs, hnames⟩ := exists_named s.table.arrays
  have hlogged : Unseen s.table.arrays
      (logIf s.table.rules.isEmpty (.nothingToClear s.table.name)) fun _ => s.table.arrays :=
    unseen_quiet (quiet_logIf _ trivial) rfl
  have hclear : Passes s.table.arrays s.table.arrays.clearBuckets fun t => t := passes_store hr _
  have hforget : TableMove s.plane.desk _ ⟨s.plane.setArrays _, gs ++ s.table.pool.stranded, []⟩ :=
    .forget hgs hnames
  have hreset := reset_unseen (hclear.reduced hr) (hforget.accounted ha)
    (not_names_clear s.table.arrays) meanwhile
  unfold deleteAll
  refine hlogged.then_passes (hclear.then_unseen (hreset.bind ?_))
  exact unseen_log (unseen_pure rfl)

theorem bind_passes (s : Router) (mode : ReclaimMode) :
    Passes s.table.arrays (s.bind mode) fun out => out.state.table.arrays := by
  have hpool : Unseen s.table.arrays (s.table.pool.bind mode s.table.config.groups)
      fun _ => s.table.arrays := by
    refine unseen_of_no_stores ?_ rfl
    unfold Pool.bind
    dsimp only
    split
    · rfl
    · cases mode with
      | wait => rfl
      | defer capacity threshold batch =>
        dsimp only
        split <;> rfl
  exact hpool.then_passes (passes_pure rfl)

theorem perform_passes (hr : s.table.arrays.Reduced) (h : s.Holds m) (c : Command)
    (meanwhile : Meanwhile) :
    Passes s.table.arrays (s.perform c meanwhile) fun out => out.state.table.arrays := by
  cases c with
  | add a depth nextHop =>
    exact (add_passes hr h.accounted a depth nextHop).then_unseen (unseen_pure rfl)
  | delete a depth => exact (delete_passes hr h a depth meanwhile).then_unseen (unseen_pure rfl)
  | deleteAll =>
    exact (deleteAll_passes hr h.accounted meanwhile).then_unseen (unseen_pure rfl)
  | reclaim =>
    have hpool := unseen_of_pool (reclaim_moves s.plane) h.accounted hr
    have hreclaim : Passes s.table.arrays s.reclaim fun out => out.state.table.arrays :=
      hpool.then_passes (passes_pure rfl)
    exact hreclaim.then_unseen (unseen_pure rfl)
  | bind mode => exact (bind_passes s mode).then_unseen (unseen_pure rfl)
  | settle =>
    have hpool := unseen_of_pool (drain_moves s.plane meanwhile) h.accounted hr
    have hsettle : Passes s.table.arrays (s.settle meanwhile) fun s => s.table.arrays :=
      hpool.then_passes (passes_log (passes_pure rfl))
    exact hsettle.then_unseen (unseen_pure rfl)

/-! ### Histories -/

theorem reduced_after (hr : s.table.arrays.Reduced) (turns : List Turn) :
    (s.after turns).table.arrays.Reduced := by
  rw [arrays_after]
  exact hr.foldl _

/-- Whatever came before and whatever the command: its stores, slot by slot, lead to the arrays
it leaves, and after every few of them each lookup answers as before the command or as after
it. -/
theorem lookup_between_stores (name : String) (config : Config)
    (hgroups : config.groups ≤ maxGroups) (maxReaders : Nat) (turns : List Turn) (c : Command)
    (meanwhile : Meanwhile) :
    let s := (fresh name config maxReaders).after turns
    let x := s.perform c meanwhile
    x.stores.foldl Arrays.apply s.table.arrays = x.value.state.table.arrays ∧
    ∀ done, done <+: x.stores → ∀ a,
      (done.foldl Arrays.apply s.table.arrays).lookup a = s.table.lookup a ∨
      (done.foldl Arrays.apply s.table.arrays).lookup a = x.value.state.table.lookup a := by
  intro s x
  have hreduced : s.table.arrays.Reduced := reduced_after (reduced_new config.groups) turns
  have hpasses : s.table.arrays.Passes x.stores x.value.state.table.arrays :=
    perform_passes hreduced (holds_fresh_run name hgroups maxReaders turns) c meanwhile
  refine ⟨hpasses.foldl_eq, fun done hdone a => ?_⟩
  exact (hpasses.answer hdone a).imp (congrArg (Option.map Route.nextHop))
    (congrArg (Option.map Route.nextHop))

/-- A deep rule goes out of a group that is folded into its cover and freed. -/
theorem lookup_between_stores_folding :
    let s := (fresh "edge" ⟨4, 2⟩ 1).after
      [.write (.add 0x0A000000 8 5) fun _ => [], .write (.add 0x0A000001 32 7) fun _ => []]
    let x := s.perform (.delete 0x0A000001 32) fun _ => []
    ∀ done, done <+: x.stores → ∀ a,
      (done.foldl Arrays.apply s.table.arrays).lookup a = s.table.lookup a ∨
      (done.foldl Arrays.apply s.table.arrays).lookup a = x.value.state.table.lookup a :=
  (lookup_between_stores "edge" ⟨4, 2⟩ (by decide) 1 _ _ _).2

end Router

end Dir248
