import Dir248.Proofs.Realization

/-!
# A rule is a local change, whatever the arrays hold

The writer keeps arrays that realize its rules, but none of the four ways through them asks for
that. A rule that comes or goes needs a first level that keeps its groups apart and answers with
nothing deeper than a bucket can hold. What the slots say, which rules they come from, which
depths an invalid slot has kept, in what state the groups are that wait to be freed and how many
groups are counted as in use, is all the same to it.

* **`covering_of_shallower`** — a route that may take a rule's place.
* **`answers_local`** — the answers after each of the four ways, for arrays of any contents.
-/

namespace Dir248

namespace Plane

open Arrays

variable {p : Plane}

theorem covering_of_shallower {cover : Option Route} {depth : Nat} (hd : depth ≤ maxDepth)
    (hc : ∀ c, cover = some c → c.depth < depth ∧ c.nextHop ≤ maxNextHop) :
    Covering cover depth := by
  refine ⟨fun c hcover => ?_, fun c hcover => Nat.le_of_lt (hc c hcover).1⟩
  obtain ⟨hlt, hhop⟩ := hc c hcover
  simp only [maxDepth, maxNextHop] at hd hhop
  exact ⟨by omega, by omega⟩

/-- Arrays of any contents, with no more groups than a table may have, in which the groups that
buckets name are marked groups of the table, none of them named twice or pending, and in which no
bucket answers with a route it could not hold. A rule that comes answers the addresses it covers,
unless a deeper route does; where no group could be had for it, every address keeps its answer. A
rule that goes leaves the addresses that it or a shallower route answered to its cover. All other
answers stay, also where a bucket's answer moves into a fresh group, where a group is folded back,
and where other groups are freed on the way; how the release of a group ends makes no
difference. -/
theorem answers_local (hle : p.arrays.groups ≤ maxGroups) (ho : p.desk.Orderly)
    (hs : p.arrays.Shallow) {route : Prefix} (hr : route.IsBlock) :
    (∀ nextHop : Nat, nextHop ≤ maxNextHop →
      let r : Rule := ⟨route, nextHop⟩
      (route.depth ≤ bucketDepth → Claimed p.arrays (p.insertShallow r).value.arrays r) ∧
      (bucketDepth < route.depth →
        ((p.insertDeep r).value.answer = .ok () →
          Claimed p.arrays (p.insertDeep r).value.state.arrays r) ∧
        (∀ e, (p.insertDeep r).value.answer = .error e →
          ∀ a, (p.insertDeep r).value.state.arrays.answer a = p.arrays.answer a))) ∧
    (∀ cover : Option Route,
      (∀ c, cover = some c → c.depth < route.depth ∧ c.nextHop ≤ maxNextHop) →
      (route.depth ≤ bucketDepth →
        Ceded p.arrays (p.removeShallow route cover).value.arrays route cover) ∧
      (bucketDepth < route.depth → p.arrays.Deep (bucket route.base) → ∀ meanwhile : Meanwhile,
        Ceded p.arrays (p.removeDeep route cover meanwhile).value.state.arrays route cover)) := by
  refine ⟨fun nextHop hh => ?_, fun cover hcover => ?_⟩
  · intro r
    have hf : r.answer.Fits := fits_answer hr hh
    refine ⟨fun hd => insertShallow_claimed ho hr hd hf, fun hd => ?_⟩
    obtain ⟨hok, hclaimed, -⟩ | ⟨e, herror, hreads⟩ := insertDeep_spec ho hle hs hr hd hf
    · refine ⟨fun _ => hclaimed, fun e herror => ?_⟩
      cases hok.symm.trans herror
    · refine ⟨fun hok => ?_, fun _ _ => hreads.answer⟩
      cases hok.symm.trans herror
  · have hc := covering_of_shallower hr.le hcover
    refine ⟨fun hd => removeShallow_ceded ho hr hd hc, fun hd hdeep meanwhile => ?_⟩
    exact (removeDeep_spec ho hr hd hc meanwhile hdeep).1

/-- Arrays that no rules lead to: a bucket names group 1, whose slots all are invalid but say that
they were 30 deep, and group 0 is stranded without ever having been handed out. -/
theorem answers_local_stale :
    let stale : Slot := { valid := false, route := ⟨30, 9⟩, occupied := true }
    let arrays := (Arrays.apply { groups := 2 } (.slots (groupStart 1) groupSize stale)).apply
      (.buckets 0x0A0102 1 (.group 1))
    let p : Plane := ⟨arrays, { inUse := 2, stranded := [0] }, Tracker.new 0⟩
    let route : Prefix := ⟨0x0A010280, 25⟩
    (p.insertDeep ⟨route, 7⟩).value.state.arrays.answer 0x0A010281 = some ⟨25, 7⟩ ∧
    (p.insertDeep ⟨route, 7⟩).value.state.arrays.answer 0x0A010201 = none ∧
    Ceded p.arrays (p.removeDeep route (some ⟨8, 3⟩) fun _ => []).value.state.arrays route
      (some ⟨8, 3⟩) := by
  intro stale arrays
  have hnone := not_names_new 2
  have hgroups : arrays.groups = 2 := rfl
  have hmarked : (Arrays.apply { groups := 2 }
      (.slots (groupStart 1) groupSize stale)).Marked 1 := by
    intro o ho
    rw [slotAt_apply_self _ _ (by decide) ho]
    rfl
  have horderly : arrays.Orderly [0] :=
    ((orderly_of_not_names hnone [1, 0]).apply_other (hnone 1) stale).link (by decide) (by decide)
      hmarked (by decide)
  have hshallow : arrays.Shallow := by
    intro i q hi hleaf
    rw [entryAt_apply_bucket _ _ _ hi, entryAt_store_slots, entryAt_new] at hleaf
    split at hleaf <;> cases hleaf
  have hname : arrays.entryAt 0x0A0102 = .group 1 :=
    (entryAt_link (by decide) (by decide)).mpr (.inl ⟨rfl, rfl⟩)
  have hempty : ∀ a, bucket a = 0x0A0102 → arrays.answer a = none := by
    intro a ha
    rw [answer_of_group (ha ▸ hname), slotAt_store_buckets,
      slotAt_apply_self _ _ (by decide) (offset_lt a)]
    rfl
  clear_value arrays
  intro p route
  have hle : p.arrays.groups ≤ maxGroups := by
    rw [hgroups]
    decide
  have hr : route.IsBlock := ⟨by decide, by decide⟩
  have hlinked : p.arrays.entryAt (bucket route.base) = .group 1 := by
    rw [show bucket route.base = 0x0A0102 by decide]
    exact hname
  obtain ⟨hadds, hremoves⟩ := answers_local hle horderly hshallow hr
  have hok : (p.insertDeep ⟨route, 7⟩).value.answer = .ok () := by
    rw [insertDeep_of_group (r := ⟨route, 7⟩) hlinked]
  have hclaimed := ((hadds 7 (by decide)).2 (by decide)).1 hok
  refine ⟨?_, ?_, (hremoves (some ⟨8, 3⟩) ?_).2 (by decide) ⟨1, hlinked⟩ _⟩
  · rw [hclaimed, hempty _ (by decide), if_pos (by decide)]
    rfl
  · rw [hclaimed, hempty _ (by decide), if_neg (by decide)]
  · rintro c ⟨⟩
    decide

end Plane

end Dir248
