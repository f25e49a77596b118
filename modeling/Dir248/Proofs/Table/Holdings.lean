import Dir248.Proofs.Table.Moves

/-!
# The moves of a table and the account of the groups

Every move of a table keeps the account of its groups, and the free groups stay blank. So
both hold after every history.

* **`TableMove.accounted`**, **`TableMove.clean`** — what every move keeps.
* **`Router.accounted_after`**, **`Router.clean_after`** — what every history keeps.
-/

namespace Dir248

namespace Arrays

variable {t : Arrays}

/-- Stores into one group that keep its group bits. -/
theorem within_slots {g start count : Nat} {s : Slot} (hg : g < maxGroups)
    (hstart : groupStart g ≤ start) (hend : start + count ≤ groupStart g + groupSize)
    (hs : ∀ j, start ≤ j → j < start + count → (t.slotAt j).occupied = true →
      s.occupied = true) : Within t (t.apply (.slots start count s)) (· = g) := by
  refine ⟨rfl, fun _ => Iff.rfl, fun {g'} heq hm o ho => ?_, fun {g'} hlt hne o ho => ?_⟩
  · have hin := inGroup_add g' ho
    subst heq
    rw [slotAt_store t _ _ s _ (hin.lt hg)]
    split
    · next hrange => exact hs _ hrange.1 hrange.2 (hm o ho)
    · exact hm o ho
  · have hin := inGroup_add g' ho
    rw [slotAt_store t _ _ s _ (hin.lt hlt), if_neg]
    intro hrange
    exact hne (hin.unique (h := g) ⟨by omega, by omega⟩)

/-- Stores into buckets that have no group and get none. -/
theorem within_buckets {start count : Nat} {e : Entry}
    (hno : ∀ i, start ≤ i → i < start + count → ∀ g, t.entryAt i ≠ .group g)
    (he : ∀ g, e.cut ≠ .group g) :
    Within t (t.apply (.buckets start count e)) fun _ => False := by
  refine ⟨rfl, fun {i g} hi => ?_, fun h => h.elim, fun _ _ _ _ => rfl⟩
  rw [entryAt_store t start count e i hi]
  split
  · next hrange => exact iff_of_false (he g) (hno i hrange.1 hrange.2 g)
  · rfl

end Arrays

open Arrays

section Moves

variable {d d' : Desk} {es : List Event}

theorem Desk.away_cons_held (p : Plane) (g : Nat) (held safe : List Nat) :
    (g :: (Desk.mk p held safe).away).Perm (Desk.mk p (g :: held) safe).away :=
  List.perm_middle.symm

theorem Desk.away_cons_safe (p : Plane) (g : Nat) (held safe : List Nat) :
    (g :: (Desk.mk p held safe).away).Perm (Desk.mk p held (g :: safe)).away := by
  unfold Desk.away
  dsimp only
  rw [← List.append_assoc, ← List.append_assoc]
  exact List.perm_middle.symm

theorem Desk.away_append_held (p : Plane) (gs held safe : List Nat) :
    (gs ++ (Desk.mk p held safe).away).Perm (Desk.mk p (gs ++ held) safe).away := by
  unfold Desk.away
  dsimp only
  rw [List.append_assoc gs]
  exact List.perm_append_comm_assoc ..

/-- Binding carries no group anywhere. -/
theorem Desk.away_bind {p : Plane} {held safe : List Nat} {r : Reclaimer}
    (hp : p.pool.reclaimer = .unbound) (hr : Pool.inQueue { p.pool with reclaimer := r } = []) :
    Desk.away ⟨{ p with pool := { p.pool with reclaimer := r } }, held, safe⟩ =
      Desk.away ⟨p, held, safe⟩ := by
  have hold : p.pool.inQueue = [] := by
    unfold Pool.inQueue
    rw [hp]
  unfold Desk.away
  dsimp only
  rw [hr, hold]

theorem lt_groups_of_names_or_safe {p : Plane} {held safe : List Nat} {g : Nat}
    (ha : Desk.Accounted ⟨p, held, safe⟩) (hg : p.arrays.Names g ∨ g ∈ safe) :
    g < p.arrays.groups := by
  rcases hg with ⟨i, hi, hname⟩ | hmem
  · exact (ha.named hi hname).1
  · exact (ha.kept (Desk.mem_away_of_safe hmem)).1

theorem TableMove.accounted (h : TableMove d es d') (ha : d.Accounted) : d'.Accounted := by
  cases h with
  | pool h => exact h.accounted ha
  | grace => exact ha
  | read step => exact ha
  | bind r hp hr =>
    unfold Desk.Accounted
    rw [Desk.away_bind hp hr]
    exact ha
  | slots hg hstart hend hs =>
    have hlt := ha.lt_maxGroups (lt_groups_of_names_or_safe ha hg)
    exact Account.within ha (within_slots hlt hstart hend hs)
  | buckets hend hno he => exact Account.within ha (within_buckets hno he)
  | link hi hno => exact Account.link (ha.perm (Desk.away_cons_safe ..).symm) hi hno
  | unlink hi hg he => exact (Account.unlink ha hi hg he).perm (Desk.away_cons_held ..)
  | forget hgs hnames =>
    exact (Account.clearBuckets ha hgs hnames).perm (Desk.away_append_held ..)
  | @wipe p safe hq hno =>
    have hcleared := Account.clearSlots ha hno (.slots 0 (p.arrays.groups * groupSize) {}) rfl
    unfold Desk.Accounted Desk.away
    show Account _ 0 (p.pool.inQueue ++ ([] ++ []))
    rw [hq]
    exact hcleared

theorem TableMove.clean (h : TableMove d es d') (ha : d.Accounted) (hc : d.Clean) : d'.Clean := by
  cases h with
  | pool h => exact h.clean ha hc
  | grace => exact hc
  | read step => exact hc
  | bind r hp hr =>
    unfold Desk.Clean
    rw [Desk.away_bind hp hr]
    exact hc
  | slots hg hstart hend hs =>
    have hlt := ha.lt_maxGroups (lt_groups_of_names_or_safe ha hg)
    refine Clean.within ha hc (within_slots hlt hstart hend hs) ?_
    rintro g rfl
    exact hg.imp_right fun hmem => Desk.mem_away_of_safe hmem
  | buckets hend hno he => exact Clean.within ha hc (within_buckets hno he) nofun
  | @link p held safe i g hi hno =>
    have hperm := (Desk.away_cons_safe p g held safe).symm
    exact Clean.link (ha.perm hperm) (Clean.perm hc hperm) hi hno
  | unlink hi hg he => exact (Clean.unlink hc hg he).perm (Desk.away_cons_held ..)
  | forget hgs hnames => exact (Clean.clearBuckets hc hnames).perm (Desk.away_append_held ..)
  | @wipe p safe hq hno =>
    have hcleared := clean_clearSlots ha.groups_le
    unfold Desk.Clean Desk.away
    show Arrays.Clean _ (p.pool.inQueue ++ ([] ++ []))
    rw [hq]
    exact hcleared

end Moves

namespace Router

/-- A table that has just been made, with a tracker of no readers. -/
def fresh (name : String) (config : Config) (maxReaders : Nat) : Router :=
  ⟨.empty name config, .new maxReaders⟩

theorem accounted_fresh (name : String) {config : Config} (hgroups : config.groups ≤ maxGroups)
    (maxReaders : Nat) : (fresh name config maxReaders).plane.desk.Accounted :=
  account_new hgroups

theorem clean_fresh (name : String) (config : Config) (maxReaders : Nat) :
    (fresh name config maxReaders).plane.desk.Clean :=
  clean_new config.groups

variable {s : Router}

/-- The account of the groups holds after every history. -/
theorem accounted_after (ha : s.plane.desk.Accounted) (turns : List Turn) :
    (s.after turns).plane.desk.Accounted :=
  (run_moves s turns).keeps TableMove.accounted ha

/-- The free groups are blank after every history. -/
theorem clean_after (ha : s.plane.desk.Accounted) (hc : s.plane.desk.Clean) (turns : List Turn) :
    (s.after turns).plane.desk.Clean :=
  (run_moves s turns).keeps_under TableMove.accounted TableMove.clean ha hc

theorem clean_fresh_after (name : String) {config : Config} (hgroups : config.groups ≤ maxGroups)
    (maxReaders : Nat) (turns : List Turn) :
    ((fresh name config maxReaders).after turns).plane.desk.Clean :=
  clean_after (accounted_fresh name hgroups maxReaders) (clean_fresh name config maxReaders) turns

end Router

end Dir248
