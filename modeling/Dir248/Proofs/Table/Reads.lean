import Dir248.Proofs.Arrays.Stores
import Dir248.Proofs.Store.Covers
import Dir248.Proofs.Table.Faultless
import Dir248.Proofs.Table.Replays
import Dir248.Proofs.Table.Space
import Mathlib.Data.List.Find

/-!
# Nothing is read outside the arrays

Stores, sweeps and the moves of rules state that they stay inside the arrays, and nothing that
is stated fails. Searches, lookups and scans state nothing, so the places that they read are
listed here. A search stays in its window, and the windows are packed into the rule array. A
slot is read behind a bucket that names its group, and buckets name groups of the table only,
also between two stores of a command, where readers may look.

* **`Place`**, **`Config.HasPlace`** — the places of the three arrays.
* **`RuleStore.searched`**, **`Arrays.entered`** — what searches and lookups read; the laws
  **`find?_congr`** to **`foldedEntry_congr`** say that nothing else has a say in their answers.
* **`Command.reads`**, **`Query.reads`** — what commands and questions read.
* **`Arrays.NamesOwn`**, **`Write.Below`** — buckets name groups of the table, store by store.
* **`Router.inside_run`** — every history stays inside the arrays and has no fault.
-/

namespace Dir248

/-! ### Places -/

/-- A place of one of the three arrays. -/
inductive Place where
  | bucket (i : Nat)
  | slot (j : Nat)
  | cell (i : Nat)
deriving Repr, DecidableEq

/-- The arrays of a table of this sizing have the place. -/
def Config.HasPlace (config : Config) : Place → Prop
  | .bucket i => i < bucketCount
  | .slot j => j < config.groups * groupSize
  | .cell i => i < config.maxRules

/-! ### Searches among the rules -/

namespace RuleStore

/-- The cells that a search among the rules of one depth goes through. -/
def searched (s : RuleStore) (depth : Nat) : List Place := (s.window depth).places.map .cell

/-- The cells that the search for a cover goes through. -/
def coverSearched (s : RuleStore) (depth : Nat) : List Place :=
  (List.range' 1 (depth - 1)).reverse.flatMap s.searched

/-- The cells that the list of all rules is made of. -/
def listed (s : RuleStore) : List Place := depths.flatMap s.searched

section Searches

variable {s s' : RuleStore} {depth : Nat}

/-- No other cell has a say in a search. -/
theorem find?_congr {p : Prefix} (hw : s'.window p.depth = s.window p.depth)
    (hc : ∀ i, .cell i ∈ s.searched p.depth → s'.cell i = s.cell i) :
    s'.find? p = s.find? p := by
  unfold find?
  rw [hw]
  refine List.find?_congr fun i hi => ?_
  rw [hc i (List.mem_map_of_mem hi)]

theorem covering?_congr {a : Address} (hw : ∀ d, s'.window d = s.window d)
    (hc : ∀ i, .cell i ∈ s.coverSearched depth → s'.cell i = s.cell i) :
    s'.covering? a depth = s.covering? a depth := by
  refine covering?_of_find? fun d hlow hlt => find?_congr (hw d) fun i hi => ?_
  have hd : d ∈ (List.range' 1 (depth - 1)).reverse :=
    List.mem_reverse.mpr (List.mem_range'_1.mpr ⟨hlow, by omega⟩)
  exact hc i (List.mem_flatMap.mpr ⟨d, hd, hi⟩)

theorem toList_congr (hw : ∀ d, s'.window d = s.window d)
    (hc : ∀ i, .cell i ∈ s.listed → s'.cell i = s.cell i) : s'.toList = s.toList := by
  refine List.flatMap_congr fun d hd => ?_
  unfold rulesAt
  rw [hw]
  refine List.map_congr_left fun i hi => ?_
  rw [hc i (List.mem_flatMap.mpr ⟨d, hd, List.mem_map_of_mem hi⟩)]

variable {config : Config} (h : s.Packed) (hcapacity : s.capacity = config.maxRules)

include h hcapacity

/-- A search stays in the rule array. -/
theorem Packed.hasPlace_searched (hd : ValidDepth depth) :
    ∀ place ∈ s.searched depth, config.HasPlace place := by
  intro place hplace
  obtain ⟨i, hi, rfl⟩ := List.mem_map.mp hplace
  exact Nat.lt_of_lt_of_eq (h.place_lt hd hi) hcapacity

theorem Packed.hasPlace_coverSearched (hd : ValidDepth depth) :
    ∀ place ∈ s.coverSearched depth, config.HasPlace place := by
  intro place hplace
  obtain ⟨d, hmem, hplace⟩ := List.mem_flatMap.mp hplace
  obtain ⟨h1, h2⟩ := List.mem_range'_1.mp (List.mem_reverse.mp hmem)
  obtain ⟨hpos, hle⟩ := hd
  exact h.hasPlace_searched hcapacity ⟨h1, by omega⟩ place hplace

theorem Packed.hasPlace_listed : ∀ place ∈ s.listed, config.HasPlace place := by
  intro place hplace
  obtain ⟨d, hmem, hplace⟩ := List.mem_flatMap.mp hplace
  exact h.hasPlace_searched hcapacity ((mem_depths d).mp hmem) place hplace

end Searches

end RuleStore

/-! ### Reads behind a bucket -/

namespace Arrays

/-- A bucket and, if it names a group, the slots that are read there. -/
def entered (t : Arrays) (i : Nat) (slots : Nat → List Nat) : List Place :=
  .bucket i :: match t.entryAt i with
    | .group g => (slots g).map .slot
    | _ => []

/-- The slots of a group. -/
def groupSlots (g : Nat) : List Nat := List.range' (groupStart g) groupSize

/-- What a lookup reads. -/
def lookedUp (t : Arrays) (a : Address) : List Place :=
  t.entered (bucket a) fun g => [groupStart g + offset a]

/-- What the search for a free group reads. -/
def scanned (t : Arrays) : List Place := (List.range t.groups).map fun g => .slot (groupStart g)

/-- What is read where a rule comes or goes: the buckets of a shallow rule and the groups behind
them, and of a deep rule the one bucket, the slots of the rule, and the group once more for the
verdict on it. -/
def spanned (t : Arrays) (route : Prefix) : List Place :=
  if route.depth ≤ bucketDepth then
    (List.range' (bucket route.base) (span route.depth)).flatMap fun i => t.entered i groupSlots
  else
    t.entered (bucket route.base) fun g =>
      List.range' (route.slotRange g).1 (span route.depth) ++ groupSlots g

variable {t t' : Arrays}

/-- No other bucket and no other slot has a say in a lookup. -/
theorem lookup_congr {a : Address}
    (hb : ∀ i, .bucket i ∈ t.lookedUp a → t'.entryAt i = t.entryAt i)
    (hs : ∀ j, .slot j ∈ t.lookedUp a → t'.slotAt j = t.slotAt j) : t'.lookup a = t.lookup a := by
  unfold lookup answer
  rw [hb (bucket a) List.mem_cons_self]
  split
  · rfl
  · rfl
  · next g hg =>
    rw [hs]
    unfold lookedUp entered
    rw [hg]
    exact List.mem_cons_of_mem _ (List.mem_singleton.mpr rfl)

theorem freeGroup?_congr (hgroups : t'.groups = t.groups)
    (hs : ∀ j, .slot j ∈ t.scanned → t'.slotAt j = t.slotAt j) :
    Plane.freeGroup? t' = Plane.freeGroup? t := by
  unfold Plane.freeGroup?
  rw [hgroups]
  refine List.find?_congr fun g hg => ?_
  rw [hs (groupStart g) (List.mem_map.mpr ⟨g, hg, rfl⟩)]

/-- Whether a group may be folded depends on its own slots alone. -/
theorem foldedEntry_congr {g : Nat} (hg : g < maxGroups)
    (hs : ∀ j ∈ groupSlots g, t'.slotAt j = t.slotAt j) :
    Plane.foldedEntry (t'.verdict g) = Plane.foldedEntry (t.verdict g) := by
  have hfoldable : ∀ r, t'.Foldable g r ↔ t.Foldable g r := by
    refine fun r => and_congr_right fun _ => forall₂_congr fun o ho => ?_
    rw [hs _ (List.mem_range'_1.mpr (inGroup_add g ho))]
  refine Option.ext fun e => ?_
  simp only [foldedEntry_verdict _ hg, hfoldable]

/-! ### Buckets name groups of the table -/

/-- Buckets name groups of the table only. -/
def NamesOwn (t : Arrays) : Prop := ∀ g, t.Names g → g < t.groups

theorem Account.namesOwn {n : Nat} {away : List Nat} (h : t.Account n away) : t.NamesOwn := by
  rintro g ⟨i, hi, hg⟩
  exact (h.named hi hg).1

section Places

variable {config : Config} (ht : t.NamesOwn) (hgroups : t.groups = config.groups)

include ht hgroups

/-- What is read in the group that a bucket names is there. -/
theorem hasPlace_entered {i : Nat} (hi : i < bucketCount) {slots : Nat → List Nat}
    (hslots : ∀ g, ∀ j ∈ slots g, InGroup g j) :
    ∀ place ∈ t.entered i slots, config.HasPlace place := by
  intro place hplace
  rcases List.mem_cons.mp hplace with rfl | hplace
  · exact hi
  · split at hplace
    · next g hg =>
      obtain ⟨j, hj, rfl⟩ := List.mem_map.mp hplace
      have hend := group_end_le (ht g ⟨i, hi, hg⟩)
      rw [hgroups] at hend
      exact Nat.lt_of_lt_of_le (hslots g j hj).2 hend
    · exact absurd hplace (List.not_mem_nil)

theorem hasPlace_lookedUp (a : Address) : ∀ place ∈ t.lookedUp a, config.HasPlace place := by
  refine hasPlace_entered ht hgroups (bucket_lt a) fun g j hj => ?_
  rw [List.mem_singleton.mp hj]
  exact inGroup_add g (offset_lt a)

theorem hasPlace_spanned {route : Prefix} (hr : route.IsBlock) :
    ∀ place ∈ t.spanned route, config.HasPlace place := by
  have hgroup : ∀ g, ∀ j ∈ groupSlots g, InGroup g j := fun g j hj => List.mem_range'_1.mp hj
  intro place hplace
  unfold spanned at hplace
  split at hplace
  · next hd =>
    obtain ⟨i, hi, hplace⟩ := List.mem_flatMap.mp hplace
    have hrange := (List.mem_range'_1.mp hi).2
    exact hasPlace_entered ht hgroups (Nat.lt_of_lt_of_le hrange (Prefix.bucketRange_le hr hd))
      hgroup place hplace
  · next hd =>
    refine hasPlace_entered ht hgroups (bucket_lt _) (fun g j hj => ?_) place hplace
    rcases List.mem_append.mp hj with hj | hj
    · obtain ⟨h1, -, h3⟩ := slotRange_within hr (Nat.lt_of_not_le hd) g
      obtain ⟨hlo, hhi⟩ := List.mem_range'_1.mp hj
      exact ⟨Nat.le_trans h1 hlo, Nat.lt_of_lt_of_le hhi h3⟩
    · exact hgroup g j hj

omit ht in
theorem hasPlace_scanned : ∀ place ∈ t.scanned, config.HasPlace place := by
  intro place hplace
  obtain ⟨g, hg, rfl⟩ := List.mem_map.mp hplace
  have hend := group_end_le (List.mem_range.mp hg)
  rw [hgroups] at hend
  exact Nat.lt_of_lt_of_le (Nat.lt_add_of_pos_right (by decide)) hend

end Places

end Arrays

/-! ### Commands and questions -/

/-- What a command reads besides what its sweeps and moves are watched for. -/
def Command.reads (s : Router) : Command → List Place
  | .add a depth nextHop =>
    if ValidDepth depth ∧ nextHop ≤ maxNextHop then
      s.table.rules.searched depth ++
        (s.table.arrays.spanned (.of a depth) ++ s.table.arrays.scanned)
    else []
  | .delete a depth =>
    if ValidDepth depth then
      s.table.rules.searched depth ++ match s.table.rules.find? (.of a depth) with
        | none => []
        | some place => (s.table.rules.remove place depth).coverSearched depth ++
            s.table.arrays.spanned (.of a depth)
    else []
  | .deleteAll | .reclaim | .bind _ | .settle => []

/-- A question about a table. -/
inductive Query where
  | present (a : Address) (depth : Nat)
  | lookup (a : Address)
  | rules
  | stats
  | freeGroups
deriving Repr, DecidableEq

/-- What an answer is made of. -/
def Query.reads (s : Router) : Query → List Place
  | .present _ depth => if ValidDepth depth then s.table.rules.searched depth else []
  | .lookup a => s.table.arrays.lookedUp a
  | .rules => s.table.rules.listed
  | .stats | .freeGroups => []

/-! ### Stores that name groups -/

/-- Where the store makes buckets name a group, the group is one of the first `n`. -/
def Write.Below (n : Nat) : Write → Prop
  | .buckets _ _ e => ∀ g, e.cut = .group g → g < n
  | .slots .. => True

theorem Write.Below.each {n : Nat} {w w' : Write} (h : w.Below n) (hw : w' ∈ w.each) :
    w'.Below n := by
  cases w with
  | buckets start count e =>
    obtain ⟨i, -, rfl⟩ := List.mem_map.mp hw
    exact h
  | slots start count s =>
    obtain ⟨j, -, rfl⟩ := List.mem_map.mp hw
    exact trivial

namespace Arrays

variable {t : Arrays}

theorem NamesOwn.apply (h : t.NamesOwn) {w : Write} (hw : w.Below t.groups) :
    (t.apply w).NamesOwn := by
  rintro g ⟨i, hi, hg⟩
  rw [groups_apply]
  cases w with
  | buckets start count e =>
    rw [entryAt_store t start count e i hi] at hg
    split at hg
    · exact hw g hg
    · exact h g ⟨i, hi, hg⟩
  | slots start count s => exact h g ⟨i, hi, hg⟩

theorem groups_foldl_apply (t : Arrays) (ws : List Write) :
    (ws.foldl Arrays.apply t).groups = t.groups := by
  induction ws generalizing t with
  | nil => rfl
  | cons w ws ih => exact (ih _).trans (groups_apply t w)

/-- Buckets name groups of the table after any number of such stores. -/
theorem NamesOwn.foldl (h : t.NamesOwn) {ws : List Write} (hws : ∀ w ∈ ws, w.Below t.groups) :
    (ws.foldl Arrays.apply t).NamesOwn := by
  induction ws generalizing t with
  | nil => exact h
  | cons w ws ih =>
    refine ih (h.apply (hws w List.mem_cons_self)) fun w' hw' => ?_
    rw [groups_apply]
    exact hws w' (List.mem_cons_of_mem w hw')

end Arrays

section Moves

variable {d d' : Desk} {es : List Event} {w : Write}

/-- The pool stores slots only. -/
theorem PoolMove.below (h : PoolMove d es d') (hw : .write w ∈ es) (n : Nat) : w.Below n := by
  cases h with
  | quiet h => exact (h _ hw).elim
  | wait meanwhile =>
    obtain hquiet | ⟨step, hstep⟩ := mem_synchronize hw
    · exact hquiet.elim
    · cases hstep
  | free =>
    obtain hquiet | heq := mem_free hw
    · exact hquiet.elim
    · cases heq
      exact trivial
  | claim =>
    obtain hquiet | heq | ⟨k, heq⟩ := mem_claim hw
    · exact hquiet.elim
    · cases heq
      exact trivial
    · cases heq
  | _ => cases hw

/-- A bucket takes a group from the writer's hands. -/
theorem TableMove.below (h : TableMove d es d') (ha : d.Accounted) (hw : .write w ∈ es) :
    w.Below d.plane.arrays.groups := by
  cases h with
  | pool h => exact h.below hw _
  | grace | bind => cases hw
  | read step => cases List.mem_singleton.mp hw
  | slots | wipe =>
    cases List.mem_singleton.mp hw
    exact trivial
  | buckets _ _ he | unlink _ _ he =>
    cases List.mem_singleton.mp hw
    exact fun g hg => absurd hg (he g)
  | forget =>
    cases List.mem_singleton.mp hw
    exact nofun
  | @link p held safe i g =>
    cases List.mem_singleton.mp hw
    have hmem : g ∈ (Desk.mk p held (g :: safe)).away :=
      Desk.mem_away_of_safe List.mem_cons_self
    intro g' hg'
    cases hg'
    exact Nat.lt_of_le_of_lt (Nat.mod_le ..) (ha.kept hmem).1

theorem below_of_chain (h : Chain TableMove d es d') (ha : d.Accounted) (hw : .write w ∈ es) :
    w.Below d.plane.arrays.groups := by
  induction h with
  | nil d => cases hw
  | cons hmove _ ih =>
    rcases List.mem_append.mp hw with hw | hw
    · exact hmove.below ha hw
    · rw [← hmove.groups]
      exact ih (hmove.accounted ha) hw

end Moves

namespace Router

open Arrays

variable {s : Router} {m : RuleMap} {config : Config}

/-- The single stores of a history name groups of the table. -/
theorem below_stores (ha : s.plane.desk.Accounted) (turns : List Turn) :
    ∀ w ∈ (s.run turns).stores, w.Below s.table.arrays.groups := by
  intro w hw
  obtain ⟨whole, hwhole, hw⟩ := List.mem_flatMap.mp hw
  obtain ⟨e, he, heq⟩ := List.mem_filterMap.mp hwhole
  cases e with
  | write w' =>
    cases heq
    exact (below_of_chain (run_moves s turns) ha he).each hw
  | _ => cases heq

/-! ### Histories -/

theorem hasPlace_command (h : s.Holds m) (hu : s.Upkeep config)
    (hgroups : s.table.arrays.groups = config.groups) (c : Command) :
    ∀ place ∈ c.reads s, config.HasPlace place := by
  have hpacked := h.wellFormed.packed
  have hnames := h.accounted.namesOwn
  intro place hplace
  cases c with
  | add a depth nextHop =>
    simp only [Command.reads] at hplace
    split at hplace
    · next hvalid =>
      rcases List.mem_append.mp hplace with hplace | hplace
      · exact hpacked.hasPlace_searched hu.capacity hvalid.1 place hplace
      · rcases List.mem_append.mp hplace with hplace | hplace
        · exact hasPlace_spanned hnames hgroups (Prefix.isBlock_of a hvalid.1) place hplace
        · exact hasPlace_scanned hgroups place hplace
    · cases hplace
  | delete a depth =>
    simp only [Command.reads] at hplace
    split at hplace
    · next hvalid =>
      rcases List.mem_append.mp hplace with hplace | hplace
      · exact hpacked.hasPlace_searched hu.capacity hvalid place hplace
      · split at hplace
        · cases hplace
        · next found hfound =>
          have hused := RuleStore.used_pos_of_mem (RuleStore.find?_eq_some hfound).1
          have hleft := hpacked.remove found hvalid hused
          have hcapacity := (s.table.rules.capacity_remove found depth).trans hu.capacity
          rcases List.mem_append.mp hplace with hplace | hplace
          · exact hleft.hasPlace_coverSearched hcapacity hvalid place hplace
          · exact hasPlace_spanned hnames hgroups (Prefix.isBlock_of a hvalid) place hplace
    · cases hplace
  | deleteAll | reclaim | bind | settle => cases hplace

theorem hasPlace_query (h : s.Holds m) (hu : s.Upkeep config)
    (hgroups : s.table.arrays.groups = config.groups) (q : Query) :
    ∀ place ∈ q.reads s, config.HasPlace place := by
  have hpacked := h.wellFormed.packed
  intro place hplace
  cases q with
  | present a depth =>
    simp only [Query.reads] at hplace
    split at hplace
    · next hvalid => exact hpacked.hasPlace_searched hu.capacity hvalid place hplace
    · cases hplace
  | lookup a => exact hasPlace_lookedUp h.accounted.namesOwn hgroups a place hplace
  | rules => exact hpacked.hasPlace_listed hu.capacity place hplace
  | stats | freeGroups => cases hplace

/-- Whatever writer and readers do: every fact that the code relies on holds, no more groups are
in use than there are, and every command and every question afterwards, as well as every lookup
between two stores of the history, reads places that the arrays have. -/
theorem inside_run (name : String) (config : Config) (hgroups : config.groups ≤ maxGroups)
    (maxReaders : Nat) (turns : List Turn) :
    let s := fresh name config maxReaders
    let x := s.run turns
    x.faults = [] ∧
    x.value.state.table.pool.inUse ≤ config.groups ∧
    (∀ c : Command, ∀ place ∈ c.reads x.value.state, config.HasPlace place) ∧
    (∀ q : Query, ∀ place ∈ q.reads x.value.state, config.HasPlace place) ∧
    ∀ done, done <+: x.stores → ∀ a, ∀ place ∈ (done.foldl Arrays.apply s.table.arrays).lookedUp a,
      config.HasPlace place := by
  intro s x
  have hfresh : s.Holds _ := holds_fresh name hgroups maxReaders
  have hafter : x.value.state.Holds _ := holds_run hfresh turns
  have hupkeep : x.value.state.Upkeep config := upkeep_after (upkeep_fresh ..) turns
  have hcount : x.value.state.table.arrays.groups = config.groups := groups_after s turns
  refine ⟨faultless_run hfresh turns, hcount ▸ hafter.accounted.inUse_le,
    hasPlace_command hafter hupkeep hcount, hasPlace_query hafter hupkeep hcount,
    fun done hdone a => ?_⟩
  have hbelow : ∀ w ∈ done, w.Below s.table.arrays.groups :=
    fun w hw => below_stores hfresh.accounted turns w (hdone.subset hw)
  exact hasPlace_lookedUp (hfresh.accounted.namesOwn.foldl hbelow) (groups_foldl_apply ..) a

/-- A group is stranded behind a full queue, freed by a pass and handed out again. -/
theorem inside_run_stranding :
    let turns : List Turn :=
      [.write (.bind (.defer 1 1 1)) fun _ => [], .read .register, .read (.online 0),
        .write (.add 0x0A000001 32 7) fun _ => [], .write (.add 0x0A000101 32 8) fun _ => [],
        .write (.delete 0x0A000001 32) fun _ => [], .write (.delete 0x0A000101 32) fun _ => [],
        .read (.quiescent 0), .write .reclaim fun _ => [],
        .write (.add 0x0A000201 30 9) fun _ => []]
    ((fresh "edge" ⟨4, 2⟩ 1).run turns).faults = [] :=
  (inside_run "edge" ⟨4, 2⟩ (by decide) 1 _).1

end Router

end Dir248
