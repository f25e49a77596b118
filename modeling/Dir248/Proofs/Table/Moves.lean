import Dir248.Command
import Dir248.Proofs.Projection

/-!
# What a table does, move by move

The moves of the pool, the steps of readers, and single stores are all that ever happens to
a table and its readers. Whole histories are chains of these moves, so that what each move
keeps holds in every state and between any two events.

* **`TableMove`** — the moves.
* **`Plane.sweepSlots_moves`**, **`Plane.sweepBuckets_moves`** — a sweep is a chain of stores.
* **`Router.take_moves`**, **`Router.run_moves`** — turns and histories are chains.
-/

namespace Dir248

/-- The moves of a table. Slots are stored in groups that a bucket names and in fresh ones; a
bucket takes a group that is safe, and a group its bucket forgets is held. -/
inductive TableMove : Desk → List Event → Desk → Prop
  | pool {d d' : Desk} {es : List Event} (h : PoolMove d es d') : TableMove d es d'
  | grace {p : Plane} {held safe : List Nat} :
      TableMove ⟨p, held, safe⟩ [] ⟨{ p with tracker := p.tracker.start }, held, safe⟩
  | read {p : Plane} {held safe : List Nat} (step : ReaderStep) :
      TableMove ⟨p, held, safe⟩ [.reader step]
        ⟨{ p with tracker := p.tracker.advance step }, held, safe⟩
  | bind {p : Plane} {held safe : List Nat} (r : Reclaimer) (hp : p.pool.reclaimer = .unbound)
      (hr : Pool.inQueue { p.pool with reclaimer := r } = []) :
      TableMove ⟨p, held, safe⟩ [] ⟨{ p with pool := { p.pool with reclaimer := r } }, held, safe⟩
  | slots {p : Plane} {held safe : List Nat} {g start count : Nat} {s : Slot}
      (hg : p.arrays.Names g ∨ g ∈ safe) (hstart : groupStart g ≤ start)
      (hend : start + count ≤ groupStart g + groupSize)
      (hs : ∀ j, start ≤ j → j < start + count → (p.arrays.slotAt j).occupied = true →
        s.occupied = true) :
      TableMove ⟨p, held, safe⟩ [.write (.slots start count s)]
        ⟨p.setArrays (p.arrays.apply (.slots start count s)), held, safe⟩
  | buckets {p : Plane} {held safe : List Nat} {start count : Nat} {e : Entry}
      (hend : start + count ≤ bucketCount)
      (hno : ∀ i, start ≤ i → i < start + count → ∀ g, p.arrays.entryAt i ≠ .group g)
      (he : ∀ g, e.cut ≠ .group g) :
      TableMove ⟨p, held, safe⟩ [.write (.buckets start count e)]
        ⟨p.setArrays (p.arrays.apply (.buckets start count e)), held, safe⟩
  | link {p : Plane} {held safe : List Nat} {i g : Nat} (hi : i < bucketCount)
      (hno : ∀ g', p.arrays.entryAt i ≠ .group g') :
      TableMove ⟨p, held, g :: safe⟩ [.write (.buckets i 1 (.group g))]
        ⟨p.setArrays (p.arrays.apply (.buckets i 1 (.group g))), held, safe⟩
  | unlink {p : Plane} {held safe : List Nat} {i g : Nat} {e : Entry} (hi : i < bucketCount)
      (hg : p.arrays.entryAt i = .group g) (he : ∀ g', e.cut ≠ .group g') :
      TableMove ⟨p, held, safe⟩ [.write (.buckets i 1 e)]
        ⟨p.setArrays (p.arrays.apply (.buckets i 1 e)), g :: held, safe⟩
  | forget {p : Plane} {held safe gs : List Nat} (hgs : gs.Nodup)
      (hnames : ∀ g, g ∈ gs ↔ p.arrays.Names g) :
      TableMove ⟨p, held, safe⟩ [.write (.buckets 0 bucketCount .invalid)]
        ⟨p.setArrays (p.arrays.apply (.buckets 0 bucketCount .invalid)), gs ++ held, safe⟩
  | wipe {p : Plane} {safe : List Nat} (hq : p.pool.inQueue = []) (hno : ∀ g, ¬ p.arrays.Names g) :
      TableMove ⟨p, [], safe⟩ [.write (.slots 0 (p.arrays.groups * groupSize) {})]
        ⟨{ p with
            arrays := p.arrays.apply (.slots 0 (p.arrays.groups * groupSize) {})
            pool := { p.pool with inUse := 0, stranded := [] } }, [], []⟩

namespace Plane

open Traced Arrays

theorem moves_of_pool {α : Type} {d : Desk} {x : Traced α} {f : α → Desk}
    (h : Leads PoolMove d x f) : Leads TableMove d x f :=
  h.mono .pool

theorem moves_quiet {α : Type} {x : Traced α} (h : x.Quiet) (d : Desk) :
    Leads TableMove d x fun _ => d :=
  moves_of_pool (leads_quiet h d)

theorem moves_emit {β : Type} {e : Event} {k : Unit → Traced β} {d : Desk} {f : β → Desk}
    (h : e.IsQuiet) (hk : Leads TableMove d (k ()) f) : Leads TableMove d (emit e >>= k) f :=
  (moves_quiet (quiet_emit h) d).bind hk

theorem moves_log {β : Type} {n : Note} {k : Unit → Traced β} {d : Desk} {f : β → Desk}
    (h : (Event.note n).IsQuiet) (hk : Leads TableMove d (k ()) f) :
    Leads TableMove d (log n >>= k) f :=
  (moves_quiet (quiet_log h) d).bind hk

theorem moves_store {t : Arrays} {w : Write} {d : Desk} {f : Arrays → Desk}
    (h : TableMove d [.write w] (f (t.apply w))) : Leads TableMove d (t.store w) f := by
  have hquiet := moves_quiet (quiet_require (t.admits w) .slotRange) d
  exact hquiet.bind (k := fun _ => ⟨t.apply w, [.write w]⟩) (.single h)

/-! ### Sweeps -/

/-- A change of slots that leaves the group bit. -/
def KeepsBit (change : Slot → Option Slot) : Prop :=
  ∀ {s s'}, change s = some s' → s.occupied = true → s'.occupied = true

theorem keepsBit_claim (r : Route) : KeepsBit (Slot.claim r) := by
  intro s s' h _
  unfold Slot.claim at h
  split at h <;> cases h
  rfl

theorem keepsBit_cede (depth : Nat) (cover : Option Route) : KeepsBit (Slot.cede depth cover) := by
  intro s s' h hs
  unfold Slot.cede at h
  split at h
  · cases h
  · split at h <;> cases h
    · rfl
    · exact hs

/-- What a sweep makes of one stretch of slots. -/
def sweepPiece (change : Slot → Option Slot) (t : Arrays) (q : Piece) : Traced Arrays :=
  match change (.decode q.word) with
  | some s => t.store (.slots q.start q.length s)
  | none => pure t

theorem value_sweepPiece (change : Slot → Option Slot) (t : Arrays) (q : Piece) :
    (sweepPiece change t q).value = slotStep change t q := by
  unfold sweepPiece slotStep
  cases change (.decode q.word) <;> rfl

theorem names_of_buckets {t t' : Arrays} (h : t'.buckets = t.buckets) (g : Nat) :
    t'.Names g ↔ t.Names g := by
  unfold Names entryAt
  rw [h]

theorem sweepPieces_moves {change : Slot → Option Slot} (hkeep : KeepsBit change)
    (words : Nat → Word) (qs : List Piece) {lo hi g : Nat} (hqs : Words.Tiles words lo hi qs)
    (hg : g < maxGroups) (hlo : groupStart g ≤ lo) (hhi : hi ≤ groupStart g + groupSize) (p : Plane)
    (hname : p.arrays.Names g) (ht : ∀ j, lo ≤ j → j < hi → p.arrays.slots.get j = words j)
    (held safe : List Nat) :
    Leads TableMove ⟨p, held, safe⟩ (qs.foldlM (sweepPiece change) p.arrays)
      fun t => ⟨p.setArrays t, held, safe⟩ := by
  induction qs generalizing lo p with
  | nil => exact leads_pure rfl
  | cons q rest ih =>
    obtain ⟨hstart, hpos, hword, hrest⟩ := hqs
    have hle := hrest.le
    have hend := groupStart_add_le hg
    have hfirst : Leads TableMove ⟨p, held, safe⟩ (sweepPiece change p.arrays q)
        fun t => ⟨p.setArrays t, held, safe⟩ := by
      unfold sweepPiece
      split
      · next s hs =>
        refine moves_store (.slots (.inl hname) (by omega) (by omega) fun j h1 h2 hocc => ?_)
        refine hkeep hs ?_
        rwa [slotAt, ht j (by omega) (by omega), hword j (by omega) (by omega)] at hocc
      · exact leads_pure rfl
    rw [List.foldlM_cons]
    refine hfirst.bind ?_
    rw [value_sweepPiece]
    refine ih hrest (by omega) (p.setArrays (slotStep change p.arrays q)) ?_ fun j h1 h2 => ?_
    · exact (names_of_buckets (buckets_slotStep change p.arrays q) g).mpr hname
    · exact (get_slotStep change p.arrays q j (by omega) (by omega)).trans (ht j (by omega) h2)

/-- A sweep of slots inside a group that a bucket names is a chain of stores. -/
theorem sweepSlots_moves {change : Slot → Option Slot} (hkeep : KeepsBit change) {lo hi g : Nat}
    (hlo : groupStart g ≤ lo) (hle : lo ≤ hi) (hhi : hi ≤ groupStart g + groupSize) (p : Plane)
    (hname : p.arrays.Names g) (held safe : List Nat) :
    Leads TableMove ⟨p, held, safe⟩ (p.arrays.sweepSlots lo hi change)
      fun t => ⟨p.setArrays t, held, safe⟩ := by
  obtain ⟨i, hi', hg⟩ := hname
  have hlt := Entry.group_lt hg
  have hend := groupStart_add_le hlt
  have htiles := Words.tiles_range p.arrays.slots hle (by omega)
  refine (moves_quiet (quiet_require _ _) _).bind ?_
  exact sweepPieces_moves hkeep _ _ htiles hlt hlo hhi p ⟨i, hi', hg⟩ (fun _ _ _ => rfl) held safe

/-- Sweeping a group once and again. -/
theorem sweepGroups_moves {α : Type} {change : Slot → Option Slot} (hkeep : KeepsBit change)
    {g : Nat} (xs : List α) (p : Plane) (hname : p.arrays.Names g) (held safe : List Nat) :
    Leads TableMove ⟨p, held, safe⟩ (xs.foldlM (fun t _ => t.sweepGroup g change) p.arrays)
      fun t => ⟨p.setArrays t, held, safe⟩ := by
  induction xs generalizing p with
  | nil => exact leads_pure rfl
  | cons x xs ih =>
    rw [List.foldlM_cons]
    refine (sweepSlots_moves hkeep (Nat.le_refl _) (Nat.le_add_right ..) (Nat.le_refl _) p hname
      held safe).bind ?_
    exact ih (p.setArrays _) ((names_of_buckets (buckets_sweepSlots ..) g).mpr hname)

theorem sweepStretch_moves {onEntry : Entry → Option Entry} {onSlot : Slot → Option Slot}
    (hplain : Entry.Plain onEntry) (hkeep : KeepsBit onSlot) {q : Piece} (hpos : 0 < q.length)
    (hend : q.start + q.length ≤ bucketCount) (p : Plane)
    (hq : ∀ i, q.start ≤ i → i < q.start + q.length → p.arrays.buckets.get i = q.word)
    (held safe : List Nat) :
    Leads TableMove ⟨p, held, safe⟩ (sweepStretch onEntry onSlot p.arrays q)
      fun t => ⟨p.setArrays t, held, safe⟩ := by
  unfold sweepStretch
  split
  · next g hg =>
    have hentry : p.arrays.entryAt q.start = .group g := by
      rw [entryAt, hq q.start (Nat.le_refl _) (by omega), hg]
    exact sweepGroups_moves hkeep _ p ⟨q.start, by omega, hentry⟩ held safe
  · next hno =>
    cases he : onEntry (Entry.decode q.word) with
    | none => exact leads_pure rfl
    | some e' =>
      refine moves_store (.buckets hend (fun i h1 h2 g hg => ?_) (hplain.plain he))
      rw [entryAt, hq i h1 h2] at hg
      exact hno g hg

theorem sweepStretches_moves {onEntry : Entry → Option Entry} {onSlot : Slot → Option Slot}
    (hplain : Entry.Plain onEntry) (hkeep : KeepsBit onSlot) (words : Nat → Word)
    (qs : List Piece) {lo hi : Nat} (hqs : Words.Tiles words lo hi qs) (hhi : hi ≤ bucketCount)
    (p : Plane) (ht : ∀ i, lo ≤ i → i < hi → p.arrays.buckets.get i = words i)
    (held safe : List Nat) :
    Leads TableMove ⟨p, held, safe⟩ (qs.foldlM (sweepStretch onEntry onSlot) p.arrays)
      fun t => ⟨p.setArrays t, held, safe⟩ := by
  induction qs generalizing lo p with
  | nil => exact leads_pure rfl
  | cons q rest ih =>
    obtain ⟨hstart, hpos, hword, hrest⟩ := hqs
    have hle := hrest.le
    have hstretch := sweepStretch_moves hplain hkeep hpos (by omega) p (fun i h1 h2 => by
      rw [ht i (by omega) (by omega), hword i (by omega) (by omega)]) held safe
    rw [List.foldlM_cons]
    refine hstretch.bind (ih hrest (p.setArrays _) fun i h1 h2 => ?_)
    have hget := get_sweepStretch onEntry onSlot hplain.group p.arrays q i (by omega)
    rw [if_neg (by omega)] at hget
    exact hget.trans (ht i (by omega) h2)

/-- A sweep of buckets is a chain of stores. -/
theorem sweepBuckets_moves {onEntry : Entry → Option Entry} {onSlot : Slot → Option Slot}
    (hplain : Entry.Plain onEntry) (hkeep : KeepsBit onSlot) {lo hi : Nat} (hlo : lo ≤ hi)
    (hhi : hi ≤ bucketCount) (p : Plane) (held safe : List Nat) :
    Leads TableMove ⟨p, held, safe⟩ (p.arrays.sweepBuckets lo hi onEntry onSlot)
      fun t => ⟨p.setArrays t, held, safe⟩ := by
  have htiles := Words.tiles_range p.arrays.buckets hlo hhi
  refine (moves_quiet (quiet_require _ _) _).bind ?_
  exact sweepStretches_moves hplain hkeep _ _ htiles hhi p (fun _ _ _ => rfl) held safe

/-! ### Rules in the arrays -/

theorem insertShallow_moves (p : Plane) {r : Rule} (hr : r.route.IsBlock)
    (hd : r.route.depth ≤ bucketDepth) :
    Leads TableMove p.desk (p.insertShallow r) fun p => p.desk := by
  refine (sweepBuckets_moves (Entry.plain_claim _) (keepsBit_claim _) (Prefix.bucketRange_fst_le _)
    (Prefix.bucketRange_le hr hd) p _ _).bind ?_
  exact moves_log trivial (leads_pure rfl)

theorem removeShallow_moves (p : Plane) {route : Prefix} (hr : route.IsBlock)
    (hd : route.depth ≤ bucketDepth) (cover : Option Route) :
    Leads TableMove p.desk (p.removeShallow route cover) fun p => p.desk := by
  refine (sweepBuckets_moves (Entry.plain_cede _ _) (keepsBit_cede _ _)
    (Prefix.bucketRange_fst_le _) (Prefix.bucketRange_le hr hd) p _ _).bind ?_
  exact leads_pure rfl

/-- A store into a fresh group. -/
theorem fill_moves (p : Plane) {g start count : Nat} (r : Route) (hstart : groupStart g ≤ start)
    (hend : start + count ≤ groupStart g + groupSize) (held : List Nat) :
    Leads TableMove ⟨p, held, [g]⟩ (p.arrays.store (.slots start count (.leaf r)))
      fun t => ⟨p.setArrays t, held, [g]⟩ :=
  moves_store (.slots (.inr List.mem_cons_self) hstart hend fun _ _ _ _ => rfl)

theorem link_moves (p : Plane) (g : Nat) {i : Nat} (hi : i < bucketCount)
    (hno : ∀ g', p.arrays.entryAt i ≠ .group g') (held safe : List Nat) :
    Leads TableMove ⟨p, held, g :: safe⟩ (p.arrays.store (.buckets i 1 (.group g)))
      fun t => ⟨p.setArrays t, held, safe⟩ :=
  moves_store (.link hi hno)

theorem unlink_moves (p : Plane) {i g : Nat} (hi : i < bucketCount)
    (hg : p.arrays.entryAt i = .group g) {e : Entry} (he : ∀ g', e.cut ≠ .group g')
    (held safe : List Nat) :
    Leads TableMove ⟨p, held, safe⟩ (p.arrays.store (.buckets i 1 e))
      fun t => ⟨p.setArrays t, g :: held, safe⟩ :=
  moves_store (.unlink hi hg he)

/-- A fresh group is filled before its bucket names it. -/
theorem linkGroup_moves (p : Plane) (g : Nat) {current : Entry} {r : Rule} (hr : r.route.IsBlock)
    (hd : bucketDepth < r.route.depth)
    (hno : ∀ g', p.arrays.entryAt (bucket r.route.base) ≠ .group g') :
    Leads TableMove ⟨p, p.pool.stranded, [g]⟩ (p.linkGroup g current r) fun p => p.desk := by
  obtain ⟨h1, -, h3⟩ := slotRange_within hr hd g
  -- what comes after the inherited answers
  have hrest : ∀ p' : Plane, p'.pool.stranded = p.pool.stranded →
      (∀ g', p'.arrays.entryAt (bucket r.route.base) ≠ .group g') →
      Leads TableMove ⟨p', p.pool.stranded, [g]⟩ (do
        let filled ← p'.arrays.store
          (.slots (groupStart g + offset r.route.base) (span r.route.depth) (.leaf r.answer))
        let arrays ← filled.store (.buckets (bucket r.route.base) 1 (.group g))
        Traced.log (.groupLinked g (bucket r.route.base))
        pure { p' with arrays }) fun p => p.desk := by
    intro p' hstranded hno'
    refine (fill_moves p' r.answer h1 h3 p.pool.stranded).bind ?_
    have hlink := link_moves (p'.setArrays (p'.arrays.apply (.slots (groupStart g +
      offset r.route.base) (span r.route.depth) (.leaf r.answer)))) g (bucket_lt r.route.base) hno'
      p.pool.stranded []
    refine hlink.bind (moves_log trivial (leads_pure ?_))
    rw [← hstranded]
    rfl
  unfold linkGroup
  cases current with
  | leaf q =>
    refine (fill_moves p q (Nat.le_refl _) (Nat.le_refl _) p.pool.stranded).bind ?_
    exact hrest (p.setArrays _) rfl hno
  | invalid => exact hrest p rfl hno
  | group g' => exact hrest p rfl hno

theorem insertDeep_moves (p : Plane) {r : Rule} (hr : r.route.IsBlock)
    (hd : bucketDepth < r.route.depth) :
    Leads TableMove p.desk (p.insertDeep r) fun out => out.state.desk := by
  unfold insertDeep
  split
  · next g hg =>
    obtain ⟨h1, h2, h3⟩ := slotRange_within hr hd g
    refine (sweepSlots_moves (keepsBit_claim _) h1 h2 h3 p ⟨_, bucket_lt _, hg⟩ _ _).bind ?_
    exact leads_pure rfl
  · next current hno =>
    have hallocate := allocate_moves p
    have hbuckets := buckets_of_chain hallocate
    refine (moves_of_pool hallocate).bind ?_
    generalize p.allocate.value = out at hbuckets ⊢
    obtain ⟨s, answer⟩ := out
    cases answer with
    | error e => exact leads_pure rfl
    | ok g =>
      refine (linkGroup_moves s g hr hd fun g' hg' => hno g' ?_).bind (leads_pure rfl)
      rw [← hg']
      exact (entryAt_of_buckets hbuckets _).symm

theorem cut_foldedEntry {v : Verdict} {left : Entry} (h : foldedEntry v = some left) (g : Nat) :
    left.cut ≠ .group g := by
  intro heq
  cases v <;> cases h <;> cases heq

theorem removeDeep_moves (p : Plane) {route : Prefix} (hr : route.IsBlock)
    (hd : bucketDepth < route.depth) (cover : Option Route) (meanwhile : Meanwhile) :
    Leads TableMove p.desk (p.removeDeep route cover meanwhile) fun out => out.state.desk := by
  unfold removeDeep
  split
  · next g hg =>
    obtain ⟨h1, h2, h3⟩ := slotRange_within hr hd g
    refine (sweepSlots_moves (keepsBit_cede _ _) h1 h2 h3 p ⟨_, bucket_lt _, hg⟩ _ _).bind ?_
    have hentry : (swept p.arrays route cover g).entryAt (bucket route.base) = .group g :=
      (entryAt_swept _).trans hg
    split
    · exact leads_pure rfl
    · next left hfold =>
      refine (unlink_moves (p.setArrays (swept p.arrays route cover g)) (bucket_lt route.base)
        hentry (cut_foldedEntry hfold) _ _).bind ?_
      exact moves_log trivial (moves_of_pool (release_moves (p.setArrays _) g meanwhile))
  · exact moves_emit trivial (moves_log trivial (leads_pure rfl))

/-! ### A fresh start -/

theorem inQueue_drainQueue (p : Plane) (meanwhile : Meanwhile) :
    (p.drainQueue meanwhile).value.state.pool.inQueue = [] := by
  unfold drainQueue
  split
  · next q hq =>
    have hpending := DeferQueue.pending_drain q p.tracker meanwhile
    show (q.drain p.tracker meanwhile).value.queue.pending.map Ticket.item = []
    rw [hpending]
    rfl
  · next hno =>
    unfold Pool.inQueue
    split
    · next q hq => exact absurd hq (hno q)
    · rfl

theorem reset_moves (p : Plane) {held : List Nat} (hno : ∀ g, ¬ p.arrays.Names g)
    (meanwhile : Meanwhile) :
    Leads TableMove ⟨p, held, []⟩ (p.reset meanwhile) fun p => p.desk := by
  have hwait := synchronizeIfBound_moves p held [] [] meanwhile
  rw [List.append_nil] at hwait
  have hno1 : ∀ g, ¬ (p.synchronizeIfBound meanwhile).value.arrays.Names g :=
    fun g => mt (names_of_buckets (buckets_of_chain hwait) g).mp (hno g)
  unfold reset
  refine (moves_of_pool hwait).bind ?_
  generalize (p.synchronizeIfBound meanwhile).value = p1 at hno1 ⊢
  have hdrain := drainQueue_moves p1 [] held meanwhile
  have hno2 : ∀ g, ¬ (p1.drainQueue meanwhile).value.state.arrays.Names g :=
    fun g => mt (names_of_buckets (buckets_of_chain hdrain) g).mp (hno1 g)
  have hqueue := inQueue_drainQueue p1 meanwhile
  refine (moves_of_pool hdrain).bind ?_
  generalize (p1.drainQueue meanwhile).value = emptied at hno2 hqueue ⊢
  have hwipe : Leads TableMove ⟨emptied.state, [], emptied.answer ++ held⟩
      emptied.state.arrays.clearSlots fun arrays => ⟨{ emptied.state with
        arrays, pool := { emptied.state.pool with inUse := 0, stranded := [] } }, [], []⟩ :=
    moves_store (.wipe hqueue hno2)
  exact hwipe.bind (moves_of_pool (leads_report (leads_pure rfl)))

end Plane

namespace Router

open Traced Arrays Plane

/-! ### Operations -/

theorem quiet_undo (rules : RuleStore) (depth : Nat) (stored : Stored) :
    (undo rules depth stored).Quiet := by
  cases stored with
  | inserted place => exact Quiet.bind (quiet_require _ _) (quiet_pure _)
  | updated place previous => exact Quiet.bind (quiet_emit trivial) (quiet_pure _)
  | unchanged => exact quiet_pure _

theorem added_moves (s : Router) (r : Rule) (outcome : AddOutcome) :
    Leads TableMove s.plane.desk (s.added r outcome) fun out => out.state.plane.desk := by
  cases outcome with
  | inserted => exact moves_emit trivial (moves_log trivial (leads_pure rfl))
  | updated => exact moves_log trivial (leads_pure rfl)
  | unchanged => exact moves_log trivial (leads_pure rfl)

theorem project_moves (s : Router) {r : Rule} (hr : r.route.IsBlock) (stored : Stored)
    (outcome : AddOutcome) :
    Leads TableMove s.plane.desk (s.project r stored outcome) fun out => out.state.plane.desk := by
  unfold project
  split
  · next hd =>
    have hadded := added_moves (s.setPlane (s.plane.insertShallow r).value) r outcome
    exact (insertShallow_moves s.plane hr hd).bind hadded
  · next hd =>
    refine (insertDeep_moves s.plane hr (Nat.lt_of_not_le hd)).bind ?_
    generalize (s.plane.insertDeep r).value = out
    obtain ⟨p, answer⟩ := out
    cases answer with
    | ok u => exact added_moves (s.setPlane p) r outcome
    | error e =>
      refine (moves_quiet (quiet_undo _ _ _) _).bind ?_
      exact moves_log trivial (leads_pure rfl)

theorem quiet_add (rules : RuleStore) (r : Rule) : (rules.add r).Quiet := by
  unfold RuleStore.add
  split
  · dsimp only
    split <;> exact quiet_pure _
  · split
    · exact quiet_pure _
    · refine Quiet.bind (quiet_require _ _) (Quiet.bind (quiet_log trivial) (quiet_pure _))

theorem addRule_moves (s : Router) {r : Rule} (hr : r.route.IsBlock) :
    Leads TableMove s.plane.desk (s.addRule r) fun out => out.state.plane.desk := by
  refine (moves_quiet (quiet_add s.table.rules r) s.plane.desk).bind ?_
  generalize (s.table.rules.add r).value = out
  obtain ⟨rules, answer⟩ := out
  cases answer with
  | error e => exact moves_log trivial (leads_pure rfl)
  | ok stored =>
    cases stored with
    | unchanged => exact moves_log trivial (leads_pure rfl)
    | inserted place => exact project_moves (s.setRules rules) hr _ _
    | updated place previous => exact project_moves (s.setRules rules) hr _ _

theorem add_moves (s : Router) (a : Address) (depth nextHop : Nat) :
    Leads TableMove s.plane.desk (s.add a depth nextHop) fun out => out.state.plane.desk := by
  unfold add
  split
  · exact leads_pure rfl
  · next hd =>
    split
    · exact leads_pure rfl
    · exact addRule_moves s (Prefix.isBlock_of a (Decidable.not_not.mp hd))

theorem withdraw_moves (s : Router) {route : Prefix} (hr : route.IsBlock) (cover : Option Route)
    (meanwhile : Meanwhile) : Leads TableMove s.plane.desk (s.withdraw route cover meanwhile)
      fun out => out.state.plane.desk := by
  unfold withdraw
  split
  · next hd => exact (removeShallow_moves s.plane hr hd cover).bind (leads_pure rfl)
  · next hd =>
    have hdeep := Nat.lt_of_not_le hd
    exact (removeDeep_moves s.plane hr hdeep cover meanwhile).bind (leads_pure rfl)

theorem delete_moves (s : Router) (a : Address) (depth : Nat) (meanwhile : Meanwhile) :
    Leads TableMove s.plane.desk (s.delete a depth meanwhile) fun out => out.state.plane.desk := by
  unfold delete
  split
  · exact leads_pure rfl
  · next hd =>
    have hr := Prefix.isBlock_of a (Decidable.not_not.mp hd)
    split
    · exact leads_pure rfl
    · next place _ =>
      refine (moves_quiet (quiet_require _ _) _).bind ?_
      refine moves_emit trivial (moves_log trivial ?_)
      exact withdraw_moves (s.setRules (s.table.rules.remove place depth)) hr _ meanwhile

theorem deleteAll_moves (s : Router) (meanwhile : Meanwhile) :
    Leads TableMove s.plane.desk (s.deleteAll meanwhile) fun s => s.plane.desk := by
  obtain ⟨gs, hgs, hnames⟩ := exists_named s.table.arrays
  have hclear : Leads TableMove s.plane.desk s.table.arrays.clearBuckets
      fun t => ⟨s.plane.setArrays t, gs ++ s.table.pool.stranded, []⟩ :=
    moves_store (.forget hgs hnames)
  have hquiet : (logIf s.table.rules.isEmpty (.nothingToClear s.table.name)).Quiet :=
    quiet_logIf _ trivial
  unfold deleteAll
  refine (moves_quiet hquiet _).bind (hclear.bind ?_)
  refine (reset_moves (s.plane.setArrays _) (not_names_clear _) meanwhile).bind ?_
  exact moves_log trivial (leads_pure rfl)

theorem bind_moves (s : Router) (mode : ReclaimMode) :
    Leads TableMove s.plane.desk (s.bind mode) fun out => out.state.plane.desk := by
  have hbound : ∀ r : Reclaimer, s.table.pool.reclaimer = .unbound →
      Pool.inQueue { s.table.pool with reclaimer := r } = [] →
      Leads TableMove s.plane.desk (do
        Traced.log (.reclamationBound mode)
        pure ⟨{ s.table.pool with reclaimer := r }, .ok ()⟩ :
          Traced (Outcome Pool (Except Failure Unit)))
        fun out => ⟨{ s.plane with pool := out.state }, out.state.stranded, []⟩ := by
    intro r hunbound hqueue
    refine moves_log trivial (Leads.first (.single (.bind r hunbound hqueue)) (leads_pure rfl))
  have hpool : Leads TableMove s.plane.desk (s.table.pool.bind mode s.table.config.groups)
      fun out => ⟨{ s.plane with pool := out.state }, out.state.stranded, []⟩ := by
    unfold Pool.bind
    dsimp only
    split
    · exact leads_pure rfl
    · next hb =>
      have hunbound : s.table.pool.reclaimer = .unbound := by simpa [Pool.isBound] using hb
      cases mode with
      | wait => exact hbound .waiting hunbound rfl
      | defer capacity threshold batch =>
        dsimp only
        split
        · next q hq =>
          refine hbound (.deferring q) hunbound ?_
          rw [Pool.inQueue_of_deferring rfl, DeferQueue.pending_new hq]
          rfl
        · exact leads_pure rfl
  exact hpool.bind (leads_pure rfl)

/-! ### Turns and histories -/

theorem perform_moves (s : Router) (c : Command) (meanwhile : Meanwhile) :
    Leads TableMove s.plane.desk (s.perform c meanwhile) fun out => out.state.plane.desk := by
  cases c with
  | add a depth nextHop => exact (add_moves s a depth nextHop).bind (leads_pure rfl)
  | delete a depth => exact (delete_moves s a depth meanwhile).bind (leads_pure rfl)
  | deleteAll => exact (deleteAll_moves s meanwhile).bind (leads_pure rfl)
  | reclaim =>
    have hreclaim : Leads TableMove s.plane.desk s.reclaim fun out => out.state.plane.desk :=
      (moves_of_pool (reclaim_moves s.plane)).bind (leads_pure rfl)
    exact hreclaim.bind (leads_pure rfl)
  | bind mode => exact (bind_moves s mode).bind (leads_pure rfl)
  | settle =>
    have hsettle : Leads TableMove s.plane.desk (s.settle meanwhile) fun s => s.plane.desk :=
      (moves_of_pool (drain_moves s.plane meanwhile)).bind (moves_log trivial (leads_pure rfl))
    exact hsettle.bind (leads_pure rfl)

theorem take_moves (s : Router) (turn : Turn) :
    Leads TableMove s.plane.desk (s.take turn) fun out => out.state.plane.desk := by
  cases turn with
  | write c meanwhile => exact (perform_moves s c meanwhile).bind (leads_pure rfl)
  | read step => exact .single (.read step)
  | grace => exact Leads.first (.single .grace) (leads_pure rfl)

/-- A whole history is a chain of moves. -/
theorem run_moves (s : Router) (turns : List Turn) :
    Leads TableMove s.plane.desk (s.run turns) fun out => out.state.plane.desk := by
  induction turns generalizing s with
  | nil => exact leads_pure rfl
  | cons turn turns ih => exact (take_moves s turn).bind ((ih _).bind (leads_pure rfl))

end Router

end Dir248
