import Dir248.Proofs.Table.Ownership
import Dir248.Proofs.Table.Replays

/-!
# Groups that readers may be inside

A reader that was online when a group lost its bucket may still be inside the group. As long
as it takes no step, the group waits: in the writer's hands, or in the defer queue behind a
token that the reader has not seen. No move frees it, hands it out or stores into it.

* **`Event.Touches`** — an event that stores into a group, names it or hands it out.
* **`Desk.Shielded`** — the group waits behind the reader.
* **`TableMove.untouched`**, **`TableMove.shielded`** — no move touches such a group, and only a
  step of the reader ends the wait.
* **`Router.untouched_run`** — so it is in every history of a table with a reclamation scheme.
-/

namespace Dir248

/-! ### Events that touch a group -/

/-- An event that stores into a group, makes a bucket name it, or hands it out. -/
def Event.Touches (g : Nat) : Event → Prop
  | .write (.slots start count _) => ∃ j, InGroup g j ∧ start ≤ j ∧ j < start + count
  | .write (.buckets _ _ e) => e.cut = .group g
  | .note (.groupAllocated g' _) => g' = g
  | _ => False

theorem Event.IsQuiet.not_touches {e : Event} (h : e.IsQuiet) (g : Nat) : ¬ e.Touches g := by
  cases e with
  | write w => exact h.elim
  | note n =>
    cases n with
    | groupAllocated => exact h.elim
    | _ => exact not_false
  | _ => exact not_false

/-- A store into one group touches no other. -/
theorem not_touches_slots {g g' start count : Nat} {s : Slot} (hstart : groupStart g' ≤ start)
    (hend : start + count ≤ groupStart g' + groupSize) (hne : g ≠ g') :
    ¬ (Event.write (.slots start count s)).Touches g := by
  intro h
  obtain ⟨j, hj, h1, h2⟩ := h
  exact hne (hj.unique ⟨by omega, by omega⟩)

namespace Arrays

variable {t : Arrays} {g : Nat} {es : List Event}

theorem replay_cons (t : Arrays) (e : Event) (es : List Event) :
    t.replay (e :: es) = (t.replay [e]).replay es :=
  replay_append t [e] es

/-- Events that do not touch a group leave its slots as they are. -/
theorem slotAt_replay (hg : g < maxGroups) (h : ∀ e ∈ es, ¬ e.Touches g) {o : Nat}
    (ho : o < groupSize) :
    (t.replay es).slotAt (groupStart g + o) = t.slotAt (groupStart g + o) := by
  have hin := inGroup_add g ho
  induction es generalizing t with
  | nil => rfl
  | cons e es ih =>
    have he := h e List.mem_cons_self
    rw [replay_cons, ih fun e' he' => h e' (List.mem_cons_of_mem e he')]
    cases e with
    | write w =>
      cases w with
      | buckets start count e => rfl
      | slots start count s =>
        have hout : ¬ (start ≤ groupStart g + o ∧ groupStart g + o < start + count) :=
          fun hrange => he ⟨_, hin, hrange⟩
        exact (slotAt_store t start count s _ (hin.lt hg)).trans (if_neg hout)
    | _ => rfl

/-- Events that do not touch a group let no bucket name it. -/
theorem not_names_replay (h : ∀ e ∈ es, ¬ e.Touches g) (hno : ¬ t.Names g) :
    ¬ (t.replay es).Names g := by
  induction es generalizing t with
  | nil => exact hno
  | cons e es ih =>
    have he := h e List.mem_cons_self
    rw [replay_cons]
    refine ih (fun e' he' => h e' (List.mem_cons_of_mem e he')) ?_
    cases e with
    | write w =>
      cases w with
      | buckets start count e =>
        intro h'
        obtain ⟨i, hi, hname⟩ := h'
        rw [show t.replay [.write (.buckets start count e)] = t.apply (.buckets start count e)
          from rfl, entryAt_store t start count e i hi] at hname
        split at hname
        · exact he hname
        · exact hno ⟨i, hi, hname⟩
      | slots start count s => exact hno
    | _ => exact hno

end Arrays

/-! ### Groups behind a reader -/

/-- The tickets of the defer queue. -/
def Pool.tickets (p : Pool) : List Ticket :=
  match p.reclaimer with
  | .deferring q => q.pending
  | _ => []

theorem Pool.inQueue_eq (p : Pool) : p.inQueue = p.tickets.map Ticket.item := by
  unfold inQueue tickets
  cases p.reclaimer <;> rfl

theorem Pool.tickets_of_deferring {p : Pool} {q : DeferQueue} (h : p.reclaimer = .deferring q) :
    p.tickets = q.pending := by
  rw [tickets, h]

/-- A group waits behind reader `r`, who has seen token `c` last: it is in hand, or its ticket
asks for a newer token. -/
structure Desk.Shielded (d : Desk) (r c g : Nat) : Prop where
  accounted : d.Accounted
  sound : d.plane.tracker.Sound
  bound : d.plane.pool.reclaimer ≠ .unbound
  inside : d.plane.tracker.Inside r c
  kept : g ∈ d.plane.pool.inQueue ∨ g ∈ d.held
  behind : ∀ x ∈ d.plane.pool.tickets, x.item = g → c < x.token

section Shield

variable {d d' : Desk} {es : List Event} {r c g : Nat}

theorem Desk.Shielded.mem_away (h : d.Shielded r c g) : g ∈ d.away := by
  rcases h.kept with hmem | hmem
  · exact List.mem_append_left _ hmem
  · exact List.mem_append_right _ (List.mem_append_left _ hmem)

theorem Desk.Shielded.not_safe (h : d.Shielded r c g) : g ∉ d.safe := by
  intro hsafe
  obtain ⟨-, hrest, hqueue⟩ := List.nodup_append.mp h.accounted.nodup
  rcases h.kept with hmem | hmem
  · exact hqueue g hmem g (List.mem_append_right _ hsafe) rfl
  · exact (List.nodup_append.mp hrest).2.2 g hmem g hsafe rfl

theorem Desk.Shielded.not_names (h : d.Shielded r c g) : ¬ d.plane.arrays.Names g :=
  h.accounted.not_names h.mem_away

theorem Desk.Shielded.marked (h : d.Shielded r c g) : d.plane.arrays.Marked g :=
  (h.accounted.kept h.mem_away).2

theorem Desk.Shielded.lt (h : d.Shielded r c g) : g < maxGroups :=
  h.accounted.lt_maxGroups (h.accounted.kept h.mem_away).1

/-- A group in hand waits behind every reader that is online. -/
theorem Desk.shielded_of_held (ha : d.Accounted) (hs : d.plane.tracker.Sound)
    (hb : d.plane.pool.reclaimer ≠ .unbound) (hi : d.plane.tracker.Inside r c)
    (hheld : g ∈ d.held) : d.Shielded r c g := by
  refine ⟨ha, hs, hb, hi, .inr hheld, fun x hx hitem => ?_⟩
  -- such a group is in no ticket
  have hqueue : g ∈ d.plane.pool.inQueue := by
    rw [Pool.inQueue_eq, ← hitem]
    exact List.mem_map_of_mem hx
  obtain ⟨-, -, hapart⟩ := List.nodup_append.mp ha.nodup
  exact absurd rfl (hapart g hqueue g (List.mem_append_left _ hheld))

/-- What events that do not touch the group leave of it. -/
theorem Desk.Shielded.kept_by_replay (h : d.Shielded r c g) (hes : ∀ e ∈ es, ¬ e.Touches g) :
    (∀ o, o < groupSize → (d.plane.arrays.replay es).slots.get (groupStart g + o) =
      d.plane.arrays.slots.get (groupStart g + o)) ∧
    (d.plane.arrays.replay es).Marked g ∧ ¬ (d.plane.arrays.replay es).Names g := by
  have hslots : ∀ o, o < groupSize → (d.plane.arrays.replay es).slotAt (groupStart g + o) =
      d.plane.arrays.slotAt (groupStart g + o) :=
    fun o ho => Arrays.slotAt_replay h.lt hes ho
  refine ⟨fun o ho => Arrays.get_of_slotAt (hslots o ho), fun o ho => ?_,
    Arrays.not_names_replay hes h.not_names⟩
  rw [hslots o ho]
  exact h.marked o ho

/-! ### No move touches such a group -/

theorem PoolMove.untouched (h : PoolMove d es d') (hs : d.Shielded r c g) :
    ∀ e ∈ es, ¬ e.Touches g := by
  cases h with
  | quiet h => exact fun e he => (h e he).not_touches g
  | wait meanwhile =>
    intro e he
    obtain hquiet | ⟨step, rfl⟩ := mem_synchronize he
    · exact hquiet.not_touches g
    · exact not_false
  | @free p _ safe g' =>
    have hne : g ≠ g' := by
      intro heq
      subst heq
      exact hs.not_safe List.mem_cons_self
    intro e he
    obtain hquiet | rfl := mem_free he
    · exact hquiet.not_touches g
    · exact not_touches_slots (Nat.le_refl _) (Nat.le_refl _) hne
  | @claim p _ _ g' hg' hfree =>
    have hne : g ≠ g' := by
      intro heq
      subst heq
      have hmark := hs.marked 0 (by decide)
      rw [Nat.add_zero, hfree] at hmark
      cases hmark
    intro e he
    obtain hquiet | rfl | ⟨n, rfl⟩ := mem_claim he
    · exact hquiet.not_touches g
    · exact not_touches_slots (Nat.le_refl _) (Nat.le_refl _) hne
    · exact Ne.symm hne
  | _ => exact nofun

theorem TableMove.untouched (h : TableMove d es d') (hs : d.Shielded r c g) :
    ∀ e ∈ es, ¬ e.Touches g := by
  cases h with
  | pool h => exact h.untouched hs
  | grace | bind => exact nofun
  | read step =>
    intro e he
    rw [List.mem_singleton.mp he]
    exact not_false
  | @slots p _ safe g' start count s hg' hstart hend =>
    intro e he
    rw [List.mem_singleton.mp he]
    refine not_touches_slots hstart hend ?_
    intro heq
    subst heq
    exact hg'.elim hs.not_names hs.not_safe
  | buckets _ _ hcut =>
    intro e he
    rw [List.mem_singleton.mp he]
    exact hcut g
  | @link p held safe i g' =>
    intro e he
    rw [List.mem_singleton.mp he]
    intro htouch
    have hmem : g' ∈ Desk.away ⟨p, held, g' :: safe⟩ :=
      Desk.mem_away_of_safe List.mem_cons_self
    have hlt := hs.accounted.lt_maxGroups (hs.accounted.kept hmem).1
    have heq := Entry.group.inj htouch
    rw [Nat.mod_eq_of_lt hlt] at heq
    subst heq
    exact hs.not_safe List.mem_cons_self
  | unlink _ _ hcut =>
    intro e he
    rw [List.mem_singleton.mp he]
    exact hcut g
  | forget =>
    intro e he
    rw [List.mem_singleton.mp he]
    exact nofun
  | wipe hq =>
    rcases hs.kept with hmem | hmem
    · rw [hq] at hmem
      cases hmem
    · cases hmem

/-! ### Only a step of the reader ends the wait -/

theorem PoolMove.bound (h : PoolMove d es d') (hb : d.plane.pool.reclaimer ≠ .unbound) :
    d'.plane.pool.reclaimer ≠ .unbound := by
  cases h with
  | pass | push | empty => exact nofun
  | _ => exact hb

theorem TableMove.bound (h : TableMove d es d') (hb : d.plane.pool.reclaimer ≠ .unbound) :
    d'.plane.pool.reclaimer ≠ .unbound := by
  cases h with
  | pool h => exact h.bound hb
  | bind r hp => exact absurd hp hb
  | _ => exact hb

theorem PoolMove.inside (h : PoolMove d es d') (hs : d.plane.tracker.Sound)
    (hi : d.plane.tracker.Inside r c) (hr : ∀ step, .reader step ∈ es → step.by? ≠ some r) :
    d'.plane.tracker.Inside r c := by
  cases h with
  | push => exact hi
  | @wait p _ _ _ meanwhile =>
    obtain ⟨step, hmem, hby⟩ := hi.steps_in_wait hs meanwhile
    exact absurd hby (hr step hmem)
  | _ => exact hi

/-- A ticket behind the reader fails its check, and stays in the queue. -/
theorem Tracker.Inside.mem_pending {t : Tracker} (hi : t.Inside r c) {q : DeferQueue} {x : Ticket}
    (hx : x ∈ q.pending) (hlt : c < x.token) (max : Nat) :
    x ∈ (q.takeSafe t max).queue.pending := by
  obtain ⟨xs, hpending, -, hchecked⟩ := q.takeSafe_spec t max
  rw [hpending] at hx
  refine (List.mem_append.mp hx).resolve_left fun hmem => ?_
  have hcheck := hchecked x hmem
  rw [hi.check_eq_false hlt] at hcheck
  cases hcheck

theorem PoolMove.waits (h : PoolMove d es d') (hs : d.Shielded r c g)
    (hr : ∀ step, .reader step ∈ es → step.by? ≠ some r) :
    (g ∈ d'.plane.pool.inQueue ∨ g ∈ d'.held) ∧
      ∀ x ∈ d'.plane.pool.tickets, x.item = g → c < x.token := by
  have hkept := hs.kept
  have hbehind := hs.behind
  cases h with
  | sort hh _ => exact ⟨hkept.imp_right hh.mem_iff.mp, hbehind⟩
  | @pass p _ _ q max hq =>
    rw [Pool.inQueue_eq, Pool.tickets_of_deferring hq] at hkept
    rw [Pool.tickets_of_deferring hq] at hbehind
    have hleft : ∀ x ∈ (q.takeSafe p.tracker max).queue.pending, x ∈ q.pending := by
      intro x hx
      obtain ⟨xs, hpending, -⟩ := q.takeSafe_spec p.tracker max
      rw [hpending]
      exact List.mem_append_right _ hx
    refine ⟨hkept.imp_left fun hmem => ?_, fun x hx => hbehind x (hleft x hx)⟩
    obtain ⟨x, hx, hitem⟩ := List.mem_map.mp hmem
    rw [Pool.inQueue_of_deferring rfl]
    exact List.mem_map.mpr ⟨x, hs.inside.mem_pending hx (hbehind x hx hitem) max, hitem⟩
  | @push p held _ q g' hq =>
    have hpending : q.pending ++ [⟨p.tracker.start.token, g'⟩] = DeferQueue.pending { q with
        waiting := q.waiting ++ [⟨p.tracker.start.token, g'⟩] } := List.append_assoc ..
    rw [Pool.inQueue_of_deferring hq] at hkept
    rw [Pool.tickets_of_deferring hq] at hbehind
    refine ⟨?_, fun x hx hitem => ?_⟩
    · have hnew : g ∈ (q.pending ++ [Ticket.mk p.tracker.start.token g']).map Ticket.item ∨
          g ∈ held := by
        rw [List.map_append, List.mem_append]
        rcases hkept with hmem | hmem
        · exact .inl (.inl hmem)
        · rcases List.mem_cons.mp hmem with rfl | hmem
          · exact .inl (.inr List.mem_cons_self)
          · exact .inr hmem
      rw [hpending] at hnew
      exact hnew
    · have hx' : x ∈ q.pending ++ [⟨p.tracker.start.token, g'⟩] := by
        rw [hpending]
        exact hx
      -- a new ticket asks for a token that no reader has seen yet
      rcases List.mem_append.mp hx' with hx' | hx'
      · exact hbehind x hx' hitem
      · rw [List.mem_singleton.mp hx']
        exact Nat.lt_succ_of_le (hs.inside.le_token hs.sound)
  | @empty p held _ q hq =>
    refine ⟨.inr ?_, nofun⟩
    rw [Pool.inQueue_of_deferring hq] at hkept
    exact List.mem_append.mpr hkept
  | @wait p _ _ _ meanwhile =>
    obtain ⟨step, hmem, hby⟩ := hs.inside.steps_in_wait hs.sound meanwhile
    exact absurd hby (hr step hmem)
  | unwatched hp => exact absurd hp hs.bound
  | _ => exact ⟨hkept, hbehind⟩

theorem PoolMove.shielded (h : PoolMove d es d') (hs : d.Shielded r c g)
    (hr : ∀ step, .reader step ∈ es → step.by? ≠ some r) : d'.Shielded r c g := by
  obtain ⟨hkept, hbehind⟩ := h.waits hs hr
  exact ⟨h.accounted hs.accounted, h.sound hs.sound, h.bound hs.bound,
    h.inside hs.sound hs.inside hr, hkept, hbehind⟩

theorem TableMove.shielded (h : TableMove d es d') (hs : d.Shielded r c g)
    (hr : ∀ step, .reader step ∈ es → step.by? ≠ some r) : d'.Shielded r c g := by
  have haccount := h.accounted hs.accounted
  have hsound := h.sound hs.sound
  have hbound := h.bound hs.bound
  cases h with
  | pool h => exact h.shielded hs hr
  | grace => exact ⟨haccount, hsound, hbound, hs.inside, hs.kept, hs.behind⟩
  | read step =>
    have hinside := hs.inside.advance hs.sound (hr step List.mem_cons_self)
    exact ⟨haccount, hsound, hbound, hinside, hs.kept, hs.behind⟩
  | bind _ hp => exact absurd hp hs.bound
  | slots | buckets | link =>
    exact ⟨haccount, hsound, hbound, hs.inside, hs.kept, hs.behind⟩
  | unlink =>
    exact ⟨haccount, hsound, hbound, hs.inside,
      hs.kept.imp_right (List.mem_cons_of_mem _), hs.behind⟩
  | forget =>
    exact ⟨haccount, hsound, hbound, hs.inside,
      hs.kept.imp_right (List.mem_append_right _), hs.behind⟩
  | wipe hq =>
    rcases hs.kept with hmem | hmem
    · rw [hq] at hmem
      cases hmem
    · cases hmem

/-- Until the reader takes a step, no event touches the group. -/
theorem untouched_of_chain (h : Chain TableMove d es d') (hs : d.Shielded r c g)
    {during rest : List Event} (hes : es = during ++ rest)
    (hr : ∀ step, .reader step ∈ during → step.by? ≠ some r) : ∀ e ∈ during, ¬ e.Touches g := by
  induction h generalizing during with
  | nil d =>
    obtain ⟨rfl, -⟩ := List.append_eq_nil_iff.mp hes.symm
    exact nofun
  | cons hmove _ ih =>
    rcases List.append_eq_append_iff.mp hes with ⟨more, rfl, hes'⟩ | ⟨more, rfl, -⟩
    · have hs' := hmove.shielded hs fun step hmem => hr step (List.mem_append_left _ hmem)
      intro e he
      rcases List.mem_append.mp he with he | he
      · exact hmove.untouched hs e he
      · exact ih hs' hes' (fun step hmem => hr step (List.mem_append_right _ hmem)) e he
    · exact fun e he => hmove.untouched hs e (List.mem_append_left _ he)

/-! ### How a group loses its bucket -/

theorem PoolMove.slots_of_write (h : PoolMove d es d') {w : Write} (hw : .write w ∈ es) :
    ∃ start count s, w = .slots start count s := by
  cases h with
  | quiet h => exact absurd (h _ hw) id
  | wait meanwhile =>
    obtain hquiet | ⟨step, heq⟩ := mem_synchronize hw
    · exact absurd hquiet id
    · cases heq
  | free =>
    obtain hquiet | heq := mem_free hw
    · exact absurd hquiet id
    · exact ⟨_, _, _, Event.write.inj heq⟩
  | claim =>
    obtain hquiet | heq | ⟨n, heq⟩ := mem_claim hw
    · exact absurd hquiet id
    · exact ⟨_, _, _, Event.write.inj heq⟩
    · cases heq
  | _ => cases hw

theorem eq_of_singleton_eq_append {α : Type} {x y : α} {before after : List α}
    (h : [x] = before ++ y :: after) : before = [] ∧ x = y ∧ after = [] := by
  cases before with
  | nil =>
    obtain ⟨rfl, rfl⟩ := List.cons.inj h
    exact ⟨rfl, rfl, rfl⟩
  | cons z zs => exact absurd (List.cons.inj h).2.symm (List.append_ne_nil_of_right_ne_nil _ nofun)

/-- A store after which no bucket names the group is a move of its own, and puts the group on
the desk. -/
theorem TableMove.unlinks (h : TableMove d es d') {before after : List Event} {w : Write}
    (hes : es = before ++ .write w :: after) (hg : (d.plane.arrays.replay before).Names g)
    (hno : ¬ ((d.plane.arrays.replay before).apply w).Names g) :
    before = [] ∧ after = [] ∧ g ∈ d'.held ∧ d'.plane.tracker = d.plane.tracker := by
  obtain ⟨i, hi, hname⟩ := hg
  cases h with
  | pool h =>
    obtain ⟨start, count, s, rfl⟩ := h.slots_of_write (w := w) (by rw [hes]; simp)
    exact absurd ⟨i, hi, hname⟩ hno
  | grace | bind => cases before <;> cases hes
  | read step =>
    obtain ⟨-, heq, -⟩ := eq_of_singleton_eq_append hes
    cases heq
  | slots =>
    obtain ⟨rfl, heq, rfl⟩ := eq_of_singleton_eq_append hes
    cases heq
    exact absurd ⟨i, hi, hname⟩ hno
  | buckets _ hfree hcut =>
    obtain ⟨rfl, heq, rfl⟩ := eq_of_singleton_eq_append hes
    cases heq
    exact absurd ⟨i, hi, ((Arrays.within_buckets hfree hcut).entries hi).mpr hname⟩ hno
  | @link p held safe j g' hj hfree =>
    obtain ⟨rfl, heq, rfl⟩ := eq_of_singleton_eq_append hes
    cases heq
    refine absurd ⟨i, hi, ?_⟩ hno
    rw [Arrays.entryAt_apply_bucket _ _ _ hi, if_neg]
    · exact hname
    · intro heq
      subst heq
      exact hfree g hname
  | @unlink p held safe j g' e hj hg' hcut =>
    obtain ⟨rfl, heq, rfl⟩ := eq_of_singleton_eq_append hes
    cases heq
    refine ⟨rfl, rfl, ?_, rfl⟩
    have hij : i = j := by
      by_contra hne
      exact hno ⟨i, hi, (Arrays.entryAt_unlink hcut hi).mpr ⟨hne, hname⟩⟩
    subst hij
    have hgg : g' = g := Entry.group.inj (hg'.symm.trans hname)
    rw [hgg]
    exact List.mem_cons_self
  | forget _ hnames =>
    obtain ⟨rfl, heq, rfl⟩ := eq_of_singleton_eq_append hes
    exact ⟨rfl, rfl, List.mem_append_left _ ((hnames g).mpr ⟨i, hi, hname⟩), rfl⟩
  | @wipe p =>
    obtain ⟨rfl, heq, rfl⟩ := eq_of_singleton_eq_append hes
    cases heq
    exact absurd ⟨i, hi, hname⟩ hno

end Shield

namespace Plane

/-- Every group that is handed out is noted. -/
theorem noted_allocate (p : Plane) {g : Nat} (h : p.allocate.value.answer = .ok g) :
    ∃ n, .note (.groupAllocated g n) ∈ p.allocate.events := by
  unfold allocate at h ⊢
  rw [Traced.value_bind] at h
  rw [Traced.events_bind]
  generalize p.makeRoom.value = p' at h ⊢
  split at h
  · cases h
    obtain ⟨es, es', n, hevents, -⟩ := events_claim p' g
    refine ⟨n, List.mem_append_right _ ?_⟩
    rw [Traced.events_bind, hevents]
    simp
  · cases h

end Plane

namespace Router

open Arrays

/-- Until a reader that was online when a group lost its bucket takes a step, the group keeps
its words and its group bits, no bucket names it, and it is not handed out. -/
theorem untouched_run (name : String) (config : Config) (hgroups : config.groups ≤ maxGroups)
    (maxReaders : Nat) (setup turns : List Turn) {s : Router}
    (hs : s = (fresh name config maxReaders).after setup) (hbound : s.table.pool.isBound = true)
    {before during rest : List Event} {w : Write} {g r : Nat}
    (hrun : (s.run turns).events = before ++ .write w :: (during ++ rest))
    (hlinked : (s.table.arrays.replay before).Names g)
    (hunlinked : ¬ ((s.table.arrays.replay before).apply w).Names g)
    (honline : (s.tracker.replay before).Online r)
    (hstays : ∀ step, .reader step ∈ during → step.by? ≠ some r) :
    let t := (s.table.arrays.replay before).apply w
    (∀ o, o < groupSize →
      (t.replay during).slots.get (groupStart g + o) = t.slots.get (groupStart g + o)) ∧
    (t.replay during).Marked g ∧ ¬ (t.replay during).Names g ∧
    ∀ n, .note (.groupAllocated g n) ∉ during := by
  intro t
  have haccount : s.plane.desk.Accounted := by
    rw [hs]
    exact accounted_after (accounted_fresh name hgroups maxReaders) setup
  have hsound : s.tracker.Sound := by
    rw [hs]
    exact sound_after (Tracker.sound_new maxReaders) setup
  have hreclaimer : s.table.pool.reclaimer ≠ .unbound := by simpa [Pool.isBound] using hbound
  obtain ⟨d₁, d₂, before₁, before₂, after₁, after₂, rfl, hafter, hchain, hmove, htail⟩ :=
    (run_moves s turns).split hrun
  -- the store is a move of its own, between the desks `d₁` and `d₂`
  have harrays : s.table.arrays.replay before₁ = d₁.plane.arrays := (replay_of_chain hchain).symm
  rw [Arrays.replay_append, harrays] at hlinked hunlinked
  obtain ⟨rfl, rfl, hheld, htracker⟩ := hmove.unlinks rfl hlinked hunlinked
  rw [List.append_nil] at honline
  have ht : t = d₂.plane.arrays := by
    rw [hmove.replay_arrays, ← harrays, ← Arrays.replay_append]
    show (s.table.arrays.replay (before₁ ++ [])).apply w =
      s.table.arrays.replay (before₁ ++ [.write w])
    rw [List.append_nil, Arrays.replay_append]
    rfl
  -- there the group is in hand, and the reader is online
  have haccount₁ : d₁.Accounted := hchain.keeps TableMove.accounted haccount
  have haccount₂ : d₂.Accounted := hmove.accounted haccount₁
  have hsound₁ : d₁.plane.tracker.Sound :=
    hchain.keeps (P := fun d => d.plane.tracker.Sound) TableMove.sound hsound
  have hbound₁ : d₁.plane.pool.reclaimer ≠ .unbound :=
    hchain.keeps (P := fun d => d.plane.pool.reclaimer ≠ .unbound) TableMove.bound hreclaimer
  obtain ⟨c, hinside⟩ := (alike_of_chain hchain hsound hsound.token_pos (.refl _)).online honline
  rw [← htracker] at hinside
  have hshield : d₂.Shielded r c g :=
    Desk.shielded_of_held haccount₂ (hmove.sound hsound₁) (hmove.bound hbound₁) hinside hheld
  have huntouched := untouched_of_chain htail hshield hafter.symm hstays
  obtain ⟨hwords, hmarked, hno⟩ := hshield.kept_by_replay huntouched
  rw [ht]
  exact ⟨hwords, hmarked, hno, fun n hmem => huntouched _ hmem rfl⟩

/-- A table with one deep rule, a defer queue, and a reader that is online. -/
@[irreducible] def guarded : Router := (fresh "edge" ⟨4, 2⟩ 1).after
  [.write (.bind (.defer 2 0 1)) fun _ => [], .read .register, .read (.online 0),
    .write (.add 0x0A000001 32 7) fun _ => []]

/-- What a deletion of the rule does before the bucket forgets the group. -/
def guardedDeletion : List Event :=
  [.metric .ruleDeleted, .note (.ruleDeleted ⟨0x0A000001, 32⟩ none 0),
    .write (.slots 1 1 ⟨false, ⟨32, 7⟩, true⟩)]

/-- The reader goes offline after the deletion, and the next pass frees the group. -/
theorem untouched_run_guarded :
    (((guarded.table.arrays.replay guardedDeletion).apply (.buckets 0x0A0000 1 .invalid)).replay
      [.note (.groupUnlinked 0 0x0A0000 .invalid), .note (.itemDeferred 0 2),
        .metric (.freeGroups 1)]).Marked 0 := by
  obtain ⟨setup, hs⟩ : ∃ setup, guarded = (fresh "edge" ⟨4, 2⟩ 1).after setup := by
    rw [guarded]
    exact ⟨_, rfl⟩
  have haccount : (guarded.table.arrays.replay guardedDeletion).Account guarded.table.pool.inUse
      guarded.table.pool.kept := by
    refine Account.within (account_kept ?_) (within_slots (g := 0) (by decide) (by decide)
      (by decide) fun _ _ _ _ => rfl)
    rw [hs]
    exact accounted_after (accounted_fresh "edge" (by decide) 1) _
  have hname : (guarded.table.arrays.replay guardedDeletion).entryAt 0x0A0000 = .group 0 := by
    decide +kernel
  have hrun : (guarded.run [.write (.delete 0x0A000001 32) fun _ => [], .read (.offline 0),
      .write .reclaim fun _ => []]).events =
      guardedDeletion ++ .write (.buckets 0x0A0000 1 .invalid) ::
        ([.note (.groupUnlinked 0 0x0A0000 .invalid), .note (.itemDeferred 0 2),
            .metric (.freeGroups 1)] ++
          [.reader (.offline 0), .note (.itemsReclaimed 1 0), .write (.slots 0 256 {}),
            .metric .groupReleased, .metric (.freeGroups 2)]) := by decide +kernel
  have honline : (guarded.tracker.replay guardedDeletion).Online 0 :=
    ⟨1, by decide, 0, by decide +kernel, by decide +kernel⟩
  exact (untouched_run "edge" ⟨4, 2⟩ (by decide) 1 setup _ hs (by decide +kernel) hrun
    ⟨0x0A0000, by decide, hname⟩ (haccount.not_names_unlink (by decide) hname fun _ => nofun)
    honline (by simp)).2.1

end Router

end Dir248
