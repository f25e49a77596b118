import Dir248.Proofs.Store.Layouts

/-!
# What a change does to the order of the rules

Rules are listed window by window, so their order is part of what a store shows. A new rule comes
last in its window, and each deeper window turns by one place to make room for it; a rule that
goes leaves its place to the last one of its window, and each deeper window turns back.

* **`Turned`** — one window has new rules, the deeper ones turned, the shallower ones stay.
* **`Packed.turned_insert`**, **`Packed.turned_remove`** — the two changes.
* **`windows_rotate`** — the order law after every list of calls.
-/

namespace Dir248

namespace RuleStore

/-- The window of a depth lists `own`, every deeper window lists its rules turned, and every
shallower window lists the same rules as before. -/
structure Turned (s s' : RuleStore) (depth : Nat) (own : List Rule)
    (turn : List Rule → List Rule) : Prop where
  own : s'.rulesAt depth = own
  deeper : ∀ d, ValidDepth d → depth < d → s'.rulesAt d = turn (s.rulesAt d)
  shallower : ∀ d, ValidDepth d → d < depth → s'.rulesAt d = s.rulesAt d

variable {s : RuleStore}

/-- A new rule comes last in its window, and deeper windows send their first rule to their end. -/
theorem Packed.turned_insert (h : s.Packed) {r : Rule} (hr : ValidDepth r.route.depth)
    (hroom : s.size < s.capacity) :
    s.Turned (s.insert r) r.route.depth (s.rulesAt r.route.depth ++ [r]) firstToBack where
  own := h.rulesAt_insert_self hr hroom
  deeper _ hd hgt := h.rulesAt_insert_of_gt hr hroom hd hgt
  shallower _ hd hlt := h.rulesAt_insert_of_lt hr hd hlt

/-- The last rule of the window takes the place of the one that goes, and deeper windows take
their last rule to their front. -/
theorem Packed.turned_remove (h : s.Packed) {depth place : Nat} (hdepth : ValidDepth depth)
    (hplace : place ∈ (s.window depth).places) {last : Rule}
    (hlast : (s.rulesAt depth).getLast? = some last) :
    s.Turned (s.remove place depth) depth
      ((s.rulesAt depth).set (place - (s.window depth).first) last).dropLast lastToFront where
  own := by
    rw [getLast?_rulesAt (used_pos_of_mem hplace)] at hlast
    rw [h.rulesAt_remove_self hdepth hplace, Option.some.inj hlast]
  deeper _ hd hgt := h.rulesAt_remove_of_gt hdepth hplace hd hgt
  shallower _ hd hlt := h.rulesAt_remove_of_lt hdepth hplace hd hlt

/-- After every list of calls, what the next addition or removal does to the order of the rules.
An addition of a new rule puts it at the end of its window and turns the deeper windows. A rule of
a window that is removed is replaced by the last one there, and the deeper windows turn back. To
remove a rule at the place that its addition answered restores the order of every window. -/
theorem windows_rotate (capacity : Nat) (calls : List StoreCall) :
    let s := calls.foldl serve (new capacity)
    (∀ (r : Rule) (place : Nat), ValidDepth r.route.depth →
      (s.add r).value.answer = .ok (.inserted place) →
      let s' := (s.add r).value.state
      (s.add r).faults = [] ∧
      s.Turned s' r.route.depth (s.rulesAt r.route.depth ++ [r]) firstToBack ∧
      s'.canRemove place r.route.depth = true ∧
      ∀ d, ValidDepth d → (s'.remove place r.route.depth).rulesAt d = s.rulesAt d) ∧
    (∀ depth place : Nat, ValidDepth depth → place ∈ (s.window depth).places →
      s.canRemove place depth = true ∧
      (s.rulesAt depth)[place - (s.window depth).first]? = some (s.ruleAt depth place) ∧
      ∃ last, (s.rulesAt depth).getLast? = some last ∧
        s.Turned (s.remove place depth) depth
          ((s.rulesAt depth).set (place - (s.window depth).first) last).dropLast lastToFront) := by
  intro s
  have hpacked : s.Packed := ((tidy_new capacity).foldl_serve calls).packed
  refine ⟨fun r place hr hanswer => ?_, fun depth place hdepth hplace => ?_⟩
  · intro s'
    have hadded := added_add s hr
    have hfaults := hpacked.faults_add hr
    revert s'
    generalize (s.add r).value = out at hanswer hadded ⊢
    cases hadded with
    | known => cases hanswer
    | changed => cases hanswer
    | full => cases hanswer
    | fresh _ _ hroom =>
      cases hanswer
      refine ⟨hfaults, hpacked.turned_insert hr hroom, ?_, fun d hd =>
        hpacked.rulesAt_remove_insert hr hroom hd⟩
      exact (hpacked.insert hr hroom).canRemove hr (hpacked.placeFor_mem hr)
  · have hlast := getLast?_rulesAt (used_pos_of_mem hplace)
    exact ⟨hpacked.canRemove hdepth hplace, getElem?_rulesAt hplace, _, hlast,
      hpacked.turned_remove hdepth hplace hlast⟩

/-- Windows of depth 8, 16 and 32 with two, two and one rule: a third rule of depth 8 turns the
windows behind it, and the first rule of depth 8 leaves its place to the second. -/
theorem windows_rotate_three :
    let calls : List StoreCall := [.add ⟨⟨0x0A000000, 8⟩, by decide⟩ 1,
      .add ⟨⟨0x0A010203, 32⟩, by decide⟩ 2, .add ⟨⟨0x0A010000, 16⟩, by decide⟩ 3,
      .add ⟨⟨0x0B000000, 8⟩, by decide⟩ 4, .add ⟨⟨0x0A020000, 16⟩, by decide⟩ 5]
    let s := calls.foldl serve (new 8)
    let r : Rule := ⟨⟨0x0C000000, 8⟩, 6⟩
    s.rulesAt 16 = [⟨⟨0x0A010000, 16⟩, 3⟩, ⟨⟨0x0A020000, 16⟩, 5⟩] ∧
    s.Turned (s.add r).value.state r.route.depth (s.rulesAt r.route.depth ++ [r]) firstToBack ∧
    s.Turned (s.remove 0 8) 8 [⟨⟨0x0B000000, 8⟩, 4⟩] lastToFront := by
  intro calls s r
  have hs : calls.foldl serve (new 8) = s := rfl
  obtain ⟨hadds, hremoves⟩ := windows_rotate 8 calls
  rw [hs] at hadds hremoves
  obtain ⟨-, hadded, -⟩ := hadds r 2 (by decide) (by decide +kernel)
  obtain ⟨-, -, last, hlast, hremoved⟩ := hremoves 8 0 (by decide) (by decide +kernel)
  have hrules : s.rulesAt 8 = [⟨⟨0x0A000000, 8⟩, 1⟩, ⟨⟨0x0B000000, 8⟩, 4⟩] := by decide +kernel
  have hfirst : (s.window 8).first = 0 := by decide +kernel
  rw [hrules, hfirst] at hremoved
  rw [hrules] at hlast
  cases hlast
  exact ⟨by decide +kernel, hadded, hremoved⟩

end RuleStore

end Dir248
