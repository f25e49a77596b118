import Dir248.Proofs.Prefixes

/-!
# The slots of a block, by masks and shifts

Rounding an address down to the start of its block clears the bits beyond the depth, so it is the
same as masking. What is left tells where the block lies in the arrays: one of depth up to 24 takes
a range of buckets, a deeper one a range of places in one bucket. Either range is as long as the
depth says, ends inside its array, and holds the places of the addresses of the block and no others.

* **`testBit_mask`**, **`mask_eq_shift`**, **`clip_eq_and_mask`** — the netmask of a depth.
* **`bucket_eq_shift`**, **`offset_eq_and`** — the two parts of an address.
* **`slots_of_block`** — the slots that a block takes.
-/

namespace Dir248

/-! ### Masks and shifts -/

/-- The netmask of a depth has that many ones, from the top. -/
theorem testBit_mask (d k : Nat) :
    (mask d).toNat.testBit k = true ↔ k < 32 ∧ 32 - d ≤ k := by
  have hpos := blockSize_pos d
  have hle : blockSize d - 1 < 2 ^ 32 :=
    Nat.sub_one_lt_of_le hpos (Nat.pow_le_pow_right (by decide) (Nat.sub_le ..))
  have hnat : (mask d).toNat = 2 ^ 32 - (blockSize d - 1 + 1) := by
    rw [mask, UInt32.toNat_ofNat', Nat.mod_eq_of_lt (Nat.sub_lt (by decide) hpos),
      Nat.sub_add_cancel hpos]
  rw [hnat, Nat.testBit_two_pow_sub_succ hle, blockSize, Nat.testBit_two_pow_sub_one]
  simp only [Bool.and_eq_true, Bool.not_eq_true', decide_eq_true_eq, decide_eq_false_iff_not,
    Nat.not_lt]

/-- The netmask of a depth is all ones, shifted past the bits beyond the depth. -/
theorem mask_eq_shift {d : Nat} (hd : ValidDepth d) :
    mask d = 0xFFFFFFFF <<< UInt32.ofNat (32 - d) := by
  obtain ⟨hpos, -⟩ := hd
  have hshift : (UInt32.ofNat (32 - d)).toNat % 32 = 32 - d := by
    rw [UInt32.toNat_ofNat']
    omega
  apply UInt32.toNat_inj.mp
  refine Nat.eq_of_testBit_eq fun k => Bool.eq_iff_iff.mpr ?_
  rw [testBit_mask, UInt32.toNat_shiftLeft, hshift, Nat.testBit_mod_two_pow, Nat.testBit_shiftLeft]
  show _ ↔ (_ && (_ && (2 ^ 32 - 1).testBit _)) = true
  rw [Nat.testBit_two_pow_sub_one]
  simp only [Bool.and_eq_true, decide_eq_true_eq]
  omega

/-- Clipping an address clears the bits beyond the depth. -/
theorem clip_eq_and_mask (a : Address) (d : Nat) : clip a d = a &&& mask d := by
  apply UInt32.toNat_inj.mp
  refine Nat.eq_of_testBit_eq fun k => Bool.eq_iff_iff.mpr ?_
  rw [toNat_clip, UInt32.toNat_and, Nat.testBit_and, Bool.and_eq_true, testBit_mask, blockSize,
    Nat.testBit_mul_two_pow, Nat.testBit_div_two_pow, Bool.and_eq_true, decide_eq_true_eq]
  constructor
  · rintro ⟨hle, hbit⟩
    rw [Nat.sub_add_cancel hle] at hbit
    -- no address has a bit beyond the 32nd
    refine ⟨hbit, Nat.lt_of_not_le fun hge => ?_, hle⟩
    have hlt := Nat.lt_of_lt_of_le a.toNat_lt (Nat.pow_le_pow_right (by decide) hge)
    rw [Nat.testBit_lt_two_pow hlt] at hbit
    cases hbit
  · rintro ⟨hbit, -, hle⟩
    rw [Nat.sub_add_cancel hle]
    exact ⟨hle, hbit⟩

theorem bucket_eq_shift (a : Address) : bucket a = (a >>> 8).toNat := by
  rw [UInt32.toNat_shiftRight]
  exact (Nat.shiftRight_eq_div_pow a.toNat 8).symm

theorem offset_eq_and (a : Address) : offset a = (a &&& 0xFF).toNat := by
  rw [UInt32.toNat_and]
  exact (Nat.and_two_pow_sub_one_eq_mod a.toNat 8).symm

/-! ### The slots of a block -/

/-- Let `p` be the start of the block of depth `d` around an address, which is the address without
the bits beyond the depth. Up to depth 24 an address lies in the block exactly if its bucket is one
of the `span d` buckets from that of `p` on, which are all there. Beyond, it does exactly if it lies
in the bucket of `p`, at one of the `span d` places from that of `p` on, which are all in that
bucket. -/
theorem slots_of_block (ip a : Address) {d : Nat} (hd : ValidDepth d) :
    let p := clip ip d
    p = ip &&& 0xFFFFFFFF <<< UInt32.ofNat (32 - d) ∧
    (d ≤ bucketDepth →
      (clip a d = p ↔ bucket p ≤ bucket a ∧ bucket a < bucket p + span d) ∧
        bucket p + span d ≤ bucketCount) ∧
    (bucketDepth < d →
      (clip a d = p ↔
        bucket a = bucket p ∧ offset p ≤ offset a ∧ offset a < offset p + span d) ∧
        offset p + span d ≤ groupSize) := by
  intro p
  have hblock : (Prefix.of ip d).IsBlock := Prefix.isBlock_of ip hd
  refine ⟨?_, fun hle => ⟨?_, ?_⟩, fun hlt => ⟨?_, ?_⟩⟩
  · rw [← mask_eq_shift hd]
    exact clip_eq_and_mask ip d
  · exact Prefix.covers_iff_bucketRange hblock hle a
  · exact Prefix.bucketRange_le hblock hle
  · exact Prefix.covers_iff_offset hblock hlt a
  · exact hblock.offset_add_span_le hlt

/-- At depth 24 two addresses of one bucket are in one block, whatever their places in it; at depth
25 its halves are two blocks. -/
theorem slots_of_block_halves :
    ValidDepth 24 ∧ clip 0x0A01027F 24 = clip 0x0A010280 24 ∧
      ValidDepth 25 ∧ clip 0x0A01027F 25 ≠ clip 0x0A010280 25 := by
  have h24 : ValidDepth 24 := by decide
  have h25 : ValidDepth 25 := by decide
  obtain ⟨-, hbuckets, -⟩ := slots_of_block 0x0A010280 0x0A01027F h24
  obtain ⟨-, -, hplaces⟩ := slots_of_block 0x0A010280 0x0A01027F h25
  refine ⟨h24, (hbuckets (by decide)).1.mpr (by decide), h25, fun hsame => ?_⟩
  exact absurd ((hplaces (by decide)).1.mp hsame) (by decide)

end Dir248
