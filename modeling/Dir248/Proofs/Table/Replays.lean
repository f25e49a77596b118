import Dir248.Proofs.Grace.Readers
import Dir248.Proofs.Table.Holdings

/-!
# Histories told by their events

The events of a history hold every store and every step of a reader, so that the arrays and
the readers at any moment in between can be had from them.

* **`Arrays.replay`**, **`Tracker.replay`** — the arrays and the readers after some events.
* **`TableMove.replay_arrays`**, **`TableMove.alike`** — a move is told by its events.
* **`Router.arrays_after`**, **`Router.alike_after`** — so is a history.
-/

namespace Dir248

/-- The arrays after the stores among some events. -/
def Arrays.replay (t : Arrays) (es : List Event) : Arrays :=
  (es.filterMap Event.write?).foldl Arrays.apply t

/-- The readers after their steps among some events. -/
def Tracker.replay (t : Tracker) (es : List Event) : Tracker :=
  (es.filterMap Event.reader?).foldl Tracker.advance t

namespace Event

theorem IsQuiet.write? {e : Event} (h : e.IsQuiet) : e.write? = none := by
  cases e with
  | write w => exact h.elim
  | _ => rfl

theorem IsQuiet.reader? {e : Event} (h : e.IsQuiet) : e.reader? = none := by
  cases e with
  | reader step => exact h.elim
  | _ => rfl

end Event

namespace Arrays

theorem replay_append (t : Arrays) (es es' : List Event) :
    t.replay (es ++ es') = (t.replay es).replay es' := by
  rw [replay, List.filterMap_append, List.foldl_append]
  rfl

theorem replay_write (t : Arrays) (w : Write) (es : List Event) :
    t.replay (.write w :: es) = (t.apply w).replay es := rfl

theorem replay_of_no_write (t : Arrays) {es : List Event} (h : ∀ e ∈ es, e.write? = none) :
    t.replay es = t := by
  rw [replay, List.filterMap_eq_nil_iff.mpr h]
  rfl

end Arrays

namespace Tracker

theorem replay_append (t : Tracker) (es es' : List Event) :
    t.replay (es ++ es') = (t.replay es).replay es' := by
  rw [replay, List.filterMap_append, List.foldl_append]
  rfl

theorem replay_of_no_reader (t : Tracker) {es : List Event} (h : ∀ e ∈ es, e.reader? = none) :
    t.replay es = t := by
  rw [replay, List.filterMap_eq_nil_iff.mpr h]
  rfl

theorem token_replay (t : Tracker) (es : List Event) : (t.replay es).token = t.token :=
  token_foldl_advance ..

theorem replay_steps (t : Tracker) (steps : List ReaderStep) (n : Note) :
    t.replay (steps.map Event.reader ++ [.note n]) = steps.foldl advance t := by
  have hsteps : (steps.map Event.reader).filterMap Event.reader? = steps := by
    rw [List.filterMap_map]
    exact List.filterMap_some
  rw [replay, List.filterMap_append, hsteps]
  show (steps ++ []).foldl advance t = _
  rw [List.append_nil]

theorem Alike.foldl_advance {t t' : Tracker} (h : Alike t t') (ht : 0 < t.token)
    (ht' : 0 < t'.token) (steps : List ReaderStep) :
    Alike (steps.foldl Tracker.advance t) (steps.foldl Tracker.advance t') := by
  induction steps generalizing t t' with
  | nil => exact h
  | cons step steps ih =>
    refine ih (h.advance ht ht' step) ?_ ?_
    · rwa [token_advance]
    · rwa [token_advance]

end Tracker

/-! ### The events of a free and of a claim -/

section Events

open Traced

theorem events_store (t : Arrays) (w : Write) :
    ∃ es, (t.store w).events = es ++ [.write w] ∧ ∀ e ∈ es, e.IsQuiet :=
  ⟨_, rfl, quiet_require _ _⟩

/-- A free stores once. -/
theorem events_free (p : Plane) (g : Nat) : ∃ es es', (p.free g).events =
      es ++ .write (.slots (groupStart g) groupSize {}) :: es' ∧
    (∀ e ∈ es, e.IsQuiet) ∧ ∀ e ∈ es', e.IsQuiet := by
  obtain ⟨es, hstore, hquiet⟩ := events_store p.arrays (.slots (groupStart g) groupSize {})
  refine ⟨es, _, ?_, hquiet, (quiet_require (0 < p.pool.inUse) .groupCount).bind
    (f := fun _ => publish .groupReleased) (quiet_publish _)⟩
  have hevents : (p.free g).events = (p.arrays.store (.slots (groupStart g) groupSize {})).events ++
    (require (0 < p.pool.inUse) .groupCount >>= fun _ => publish .groupReleased).events := by
    simp only [Plane.free, events_bind, events_pure, List.append_nil]
  rw [hevents, hstore, List.append_assoc]
  rfl

/-- A claim stores once, and says which group it hands out. -/
theorem events_claim (p : Plane) (g : Nat) : ∃ es es' n, (p.claim g).events =
      es ++ .write (.slots (groupStart g) groupSize .empty) ::
        (es' ++ [.note (.groupAllocated g n)]) ∧
    (∀ e ∈ es, e.IsQuiet) ∧ ∀ e ∈ es', e.IsQuiet := by
  obtain ⟨es, hstore, hquiet⟩ := events_store p.arrays (.slots (groupStart g) groupSize .empty)
  have hreport : (publish .groupAllocated >>= fun _ => (p.claim g).value.report).Quiet :=
    (quiet_publish _).bind ((quiet_require _ _).bind (quiet_publish _))
  refine ⟨es, _, (p.claim g).value.pool.inUse, ?_, hquiet, hreport⟩
  have hevents : (p.claim g).events =
      (p.arrays.store (.slots (groupStart g) groupSize .empty)).events ++
        ((publish .groupAllocated >>= fun _ => (p.claim g).value.report).events ++
          [.note (.groupAllocated g (p.claim g).value.pool.inUse)]) := by
    simp only [Plane.claim, events_bind, value_bind, events_pure, List.append_nil,
      List.append_assoc]
    rfl
  rw [hevents, hstore, List.append_assoc]
  rfl

/-- What a free can be seen to do. -/
theorem mem_free {p : Plane} {g : Nat} {e : Event} (h : e ∈ (p.free g).events) :
    e.IsQuiet ∨ e = .write (.slots (groupStart g) groupSize {}) := by
  obtain ⟨es, es', hevents, h1, h2⟩ := events_free p g
  rw [hevents] at h
  rcases List.mem_append.mp h with h | h
  · exact .inl (h1 e h)
  · exact (List.mem_cons.mp h).symm.imp_left (h2 e)

/-- What a claim can be seen to do. -/
theorem mem_claim {p : Plane} {g : Nat} {e : Event} (h : e ∈ (p.claim g).events) :
    e.IsQuiet ∨ e = .write (.slots (groupStart g) groupSize .empty) ∨
      ∃ n, e = .note (.groupAllocated g n) := by
  obtain ⟨es, es', n, hevents, h1, h2⟩ := events_claim p g
  rw [hevents] at h
  rcases List.mem_append.mp h with h | h
  · exact .inl (h1 e h)
  · rcases List.mem_cons.mp h with heq | h
    · exact .inr (.inl heq)
    · rcases List.mem_append.mp h with h | h
      · exact .inl (h2 e h)
      · exact .inr (.inr ⟨n, List.mem_singleton.mp h⟩)

/-- A wait shows the steps that fall into it, and its end. -/
theorem mem_synchronize {t : Tracker} {meanwhile : Meanwhile} {e : Event}
    (h : e ∈ (t.synchronize meanwhile).events) : e.IsQuiet ∨ ∃ step, e = .reader step := by
  rcases List.mem_append.mp h with h | h
  · obtain ⟨step, -, rfl⟩ := List.mem_map.mp h
    exact .inr ⟨step, rfl⟩
  · rw [List.mem_singleton.mp h]
    exact .inl trivial

end Events

/-! ### Moves -/

section Moves

variable {d d' : Desk} {es : List Event}

theorem PoolMove.replay_arrays (h : PoolMove d es d') :
    d'.plane.arrays = d.plane.arrays.replay es := by
  have hquiet : ∀ (t : Arrays) {es : List Event}, (∀ e ∈ es, e.IsQuiet) → t.replay es = t :=
    fun t _ h => t.replay_of_no_write fun e he => (h e he).write?
  cases h with
  | quiet h => exact (hquiet _ h).symm
  | wait meanwhile =>
    refine (Arrays.replay_of_no_write _ fun e he => ?_).symm
    obtain hquiet | ⟨step, rfl⟩ := mem_synchronize he
    · exact hquiet.write?
    · rfl
  | @free p _ _ g =>
    obtain ⟨es, es', hevents, h1, h2⟩ := events_free p g
    rw [hevents, Arrays.replay_append, hquiet _ h1, Arrays.replay_write, hquiet _ h2]
    rfl
  | @claim p _ _ g =>
    obtain ⟨es, es', n, hevents, h1, h2⟩ := events_claim p g
    rw [hevents, Arrays.replay_append, hquiet _ h1, Arrays.replay_write, Arrays.replay_append,
      hquiet _ h2]
    rfl
  | _ => rfl

theorem TableMove.replay_arrays (h : TableMove d es d') :
    d'.plane.arrays = d.plane.arrays.replay es := by
  cases h with
  | pool h => exact h.replay_arrays
  | _ => rfl

theorem PoolMove.sound (h : PoolMove d es d') (hs : d.plane.tracker.Sound) :
    d'.plane.tracker.Sound := by
  cases h with
  | push => exact hs.start
  | wait meanwhile => exact hs.synchronize meanwhile
  | _ => exact hs

theorem TableMove.sound (h : TableMove d es d') (hs : d.plane.tracker.Sound) :
    d'.plane.tracker.Sound := by
  cases h with
  | pool h => exact h.sound hs
  | grace => exact hs.start
  | read step => exact hs.advance step
  | _ => exact hs

theorem PoolMove.alike (h : PoolMove d es d') (hs : d.plane.tracker.Sound) {t : Tracker}
    (ht : 0 < t.token) (ha : t.Alike d.plane.tracker) : (t.replay es).Alike d'.plane.tracker := by
  cases h with
  | quiet h =>
    rw [t.replay_of_no_reader fun e he => (h e he).reader?]
    exact ha
  | push => exact ⟨ha.readers, ha.slots⟩
  | @wait p _ _ _ meanwhile =>
    have hstart : t.Alike p.tracker.start := ⟨ha.readers, ha.slots⟩
    unfold Tracker.synchronize
    rw [Tracker.replay_steps]
    exact hstart.foldl_advance ht hs.start.token_pos _
  | free =>
    rw [t.replay_of_no_reader fun e he => ?_]
    · exact ha
    · obtain hquiet | rfl := mem_free he
      · exact hquiet.reader?
      · rfl
  | claim =>
    rw [t.replay_of_no_reader fun e he => ?_]
    · exact ha
    · obtain hquiet | rfl | ⟨n, rfl⟩ := mem_claim he
      · exact hquiet.reader?
      · rfl
      · rfl
  | _ => exact ha

/-- A reader is online or not as the events say. -/
theorem TableMove.alike (h : TableMove d es d') (hs : d.plane.tracker.Sound) {t : Tracker}
    (ht : 0 < t.token) (ha : t.Alike d.plane.tracker) : (t.replay es).Alike d'.plane.tracker := by
  cases h with
  | pool h => exact h.alike hs ht ha
  | grace => exact ⟨ha.readers, ha.slots⟩
  | read step => exact ha.advance ht hs.token_pos step
  | _ => exact ha

/-! ### Chains and histories -/

theorem replay_of_chain (h : Chain TableMove d es d') :
    d'.plane.arrays = d.plane.arrays.replay es := by
  induction h with
  | nil d => rfl
  | cons hmove _ ih => rw [ih, hmove.replay_arrays, ← Arrays.replay_append]

theorem alike_of_chain (h : Chain TableMove d es d') (hs : d.plane.tracker.Sound) {t : Tracker}
    (ht : 0 < t.token) (ha : t.Alike d.plane.tracker) : (t.replay es).Alike d'.plane.tracker := by
  induction h generalizing t with
  | nil d => exact ha
  | cons hmove _ ih =>
    rw [Tracker.replay_append]
    refine ih (hmove.sound hs) ?_ (hmove.alike hs ht ha)
    rwa [Tracker.token_replay]

end Moves

namespace Router

variable {s : Router}

/-- The stores among the events of a history lead to the arrays that it leaves. -/
theorem arrays_after (s : Router) (turns : List Turn) :
    (s.after turns).table.arrays = s.table.arrays.replay (s.run turns).events :=
  replay_of_chain (run_moves s turns)

/-- The steps of the readers lead to the readers that a history leaves, but for the tokens. -/
theorem alike_after (hs : s.tracker.Sound) (turns : List Turn) :
    (s.tracker.replay (s.run turns).events).Alike (s.after turns).tracker :=
  alike_of_chain (run_moves s turns) hs hs.token_pos (.refl _)

theorem sound_after (hs : s.tracker.Sound) (turns : List Turn) : (s.after turns).tracker.Sound :=
  (run_moves s turns).keeps (P := fun d => d.plane.tracker.Sound) TableMove.sound hs

end Router

end Dir248
