import Dir248.Projection

/-!
# Blocks inside blocks, and the slots of a block

Clipping is division by the size of a block, so a deeper clip decides every shallower one,
and the addresses of a block are those whose slots lie in the range of the block.

* **`clip_of_le`**, **`clip_eq_of_le`** — a deeper block lies inside the shallower one.
* **`bucket_eq_iff`** — a bucket is a block of depth 24.
* **`covers_iff_bucketRange`**, **`covers_iff_slotRange`** — the addresses of a block, by
  first-level slot up to depth 24 and by second-level slot beyond.
* **`addressAt`** — the address at a place of a bucket.
-/

namespace Dir248

/-! ### Blocks inside blocks -/

theorem blockSize_of_le {d e : Nat} (h : d ≤ e) (he : e ≤ 32) :
    blockSize d = blockSize e * 2 ^ (e - d) := by
  rw [blockSize, blockSize, ← Nat.pow_add]
  congr 1
  omega

theorem blockSize_deep {d : Nat} (h : 32 ≤ d) : blockSize d = 1 := by
  rw [blockSize, show 32 - d = 0 by omega, Nat.pow_zero]

theorem clip_deep (a : Address) {d : Nat} (h : 32 ≤ d) : clip a d = a := by
  apply UInt32.toNat_inj.mp
  rw [toNat_clip, blockSize_deep h, Nat.div_one, Nat.mul_one]

theorem clip_eq_clip_iff (a b : Address) (d : Nat) :
    clip a d = clip b d ↔ a.toNat / blockSize d = b.toNat / blockSize d := by
  rw [← UInt32.toNat_inj, toNat_clip, toNat_clip]
  exact Nat.mul_left_inj (Nat.ne_of_gt (blockSize_pos d))

/-- Clipping deep first makes no difference to a shallower clip. -/
theorem clip_of_le (a : Address) {d e : Nat} (h : d ≤ e) : clip (clip a e) d = clip a d := by
  rcases Nat.le_total 32 e with he | he
  · rw [clip_deep a he]
  · rw [clip_eq_clip_iff, toNat_clip, blockSize_of_le h he, ← Nat.div_div_eq_div_mul,
      ← Nat.div_div_eq_div_mul, Nat.mul_div_cancel _ (blockSize_pos e)]

/-- Addresses that agree on a deep block agree on every shallower one. -/
theorem clip_eq_of_le {a b : Address} {d e : Nat} (h : d ≤ e) (hab : clip a e = clip b e) :
    clip a d = clip b d := by
  rw [← clip_of_le a h, hab, clip_of_le b h]

/-- The blocks of two addresses that share a deeper block. -/
theorem Prefix.of_eq_of_le {a b : Address} {d e : Nat} (h : d ≤ e) (hab : clip a e = clip b e) :
    Prefix.of a d = Prefix.of b d := by
  rw [Prefix.of, Prefix.of, clip_eq_of_le h hab]

/-! ### Buckets -/

theorem bucket_eq_iff (a b : Address) : bucket a = bucket b ↔ clip a 24 = clip b 24 :=
  (clip_eq_clip_iff a b 24).symm

theorem bucket_clip (a : Address) {d : Nat} (h : 24 ≤ d) : bucket (clip a d) = bucket a := by
  rw [bucket_eq_iff, clip_of_le a h]

/-- The address at a place of a bucket. -/
def addressAt (i o : Nat) : Address := .ofNat (i * 256 + o)

theorem toNat_addressAt {i o : Nat} (hi : i < bucketCount) (ho : o < groupSize) :
    (addressAt i o).toNat = i * 256 + o := by
  simp only [bucketCount, groupSize] at hi ho
  simp only [addressAt, UInt32.toNat_ofNat']
  omega

theorem bucket_addressAt {i o : Nat} (hi : i < bucketCount) (ho : o < groupSize) :
    bucket (addressAt i o) = i := by
  rw [bucket, toNat_addressAt hi ho]
  simp only [groupSize] at ho
  omega

theorem offset_addressAt {i o : Nat} (hi : i < bucketCount) (ho : o < groupSize) :
    offset (addressAt i o) = o := by
  rw [offset, toNat_addressAt hi ho]
  simp only [groupSize] at ho
  omega

/-! ### The slots of a block -/

namespace Prefix

/-- A prefix whose base is the start of its block, of a depth that a rule may have. -/
structure IsBlock (p : Prefix) : Prop where
  depth : ValidDepth p.depth
  base : clip p.base p.depth = p.base

theorem isBlock_of (a : Address) {d : Nat} (h : ValidDepth d) : (of a d).IsBlock :=
  ⟨h, clip_clip a d⟩

theorem IsBlock.one_le {p : Prefix} (h : p.IsBlock) : 1 ≤ p.depth := h.depth.1

theorem IsBlock.le {p : Prefix} (h : p.IsBlock) : p.depth ≤ 32 := h.depth.2

theorem IsBlock.covers_base {p : Prefix} (h : p.IsBlock) : p.Covers p.base := h.base

theorem IsBlock.covers_iff {p : Prefix} (h : p.IsBlock) (a : Address) :
    p.Covers a ↔ a.toNat / blockSize p.depth = p.base.toNat / blockSize p.depth := by
  rw [Covers, ← clip_eq_clip_iff, h.base]

/-- The base of a block as a multiple of its size. -/
theorem IsBlock.base_eq {p : Prefix} (h : p.IsBlock) :
    p.base.toNat = p.base.toNat / blockSize p.depth * blockSize p.depth := by
  have hb := congrArg UInt32.toNat h.base
  rw [toNat_clip] at hb
  exact hb.symm

theorem span_shallow {d : Nat} (h : d ≤ 24) : blockSize d = span d * 256 := by
  rw [span, if_pos h, blockSize, show 32 - d = 24 - d + 8 by omega, Nat.pow_add]

theorem span_deep {d : Nat} (h : 24 < d) : span d = blockSize d := if_neg (by
  show ¬ d ≤ 24
  omega)

theorem span_pos (d : Nat) : 0 < span d := by
  unfold span
  split <;> exact Nat.two_pow_pos _

/-- The addresses of a block of depth up to 24 are those of its range of buckets. -/
theorem covers_iff_bucketRange {p : Prefix} (h : p.IsBlock) (hd : p.depth ≤ 24) (a : Address) :
    p.Covers a ↔ p.bucketRange.1 ≤ bucket a ∧ bucket a < p.bucketRange.2 := by
  have hs := span_shallow hd
  have hbase := h.base_eq
  rw [h.covers_iff a]
  simp only [bucketRange, bucket]
  generalize hk : p.base.toNat / blockSize p.depth = k at hbase ⊢
  rw [hs] at hbase ⊢
  rw [Nat.mul_comm (span p.depth), ← Nat.div_div_eq_div_mul,
    Nat.div_eq_iff (span_pos p.depth), hbase, ← Nat.mul_assoc,
    Nat.mul_div_cancel _ (by decide : 0 < 256)]
  have := span_pos p.depth
  omega

theorem bucketRange_le {p : Prefix} (h : p.IsBlock) (hd : p.depth ≤ 24) :
    p.bucketRange.2 ≤ bucketCount := by
  have hs := span_shallow hd
  have hbase := h.base_eq
  have hlt := p.base.toNat_lt
  generalize hk : p.base.toNat / blockSize p.depth = k at hbase
  have hfull : blockSize p.depth * 2 ^ p.depth = 2 ^ 32 := by
    have hle := h.le
    rw [blockSize, ← Nat.pow_add]
    congr 1
    omega
  have hk' : k < 2 ^ p.depth := by
    refine Nat.lt_of_mul_lt_mul_left (a := blockSize p.depth) ?_
    rw [hfull, Nat.mul_comm, ← hbase]
    exact hlt
  have hend : (k + 1) * blockSize p.depth ≤ 2 ^ 32 := by
    rw [← hfull, Nat.mul_comm]
    exact Nat.mul_le_mul_left _ hk'
  rw [Nat.add_mul, hs, ← Nat.mul_assoc] at hend
  simp only [bucketRange, bucket, bucketCount]
  rw [hbase, hs, ← Nat.mul_assoc, Nat.mul_div_cancel _ (by decide : 0 < 256)]
  omega

theorem bucketRange_fst_le (p : Prefix) : p.bucketRange.1 ≤ p.bucketRange.2 := Nat.le_add_right ..

/-- A block deeper than a bucket in numbers: its size divides the bucket, and its base lies at
a multiple of its size. -/
theorem IsBlock.split_deep {p : Prefix} (h : p.IsBlock) (hd : 24 < p.depth) :
    ∃ c k, 256 = blockSize p.depth * c ∧ 0 < c ∧ p.base.toNat = k * blockSize p.depth ∧
      bucket p.base = k / c ∧ offset p.base = k % c * blockSize p.depth := by
  have hle := h.le
  refine ⟨2 ^ (p.depth - 24), p.base.toNat / blockSize p.depth, ?_, Nat.two_pow_pos _, h.base_eq,
    ?_, ?_⟩
  · rw [← blockSize_of_le (Nat.le_of_lt hd) hle]
    rfl
  · rw [Nat.div_div_eq_div_mul, ← blockSize_of_le (Nat.le_of_lt hd) hle]
    rfl
  · have hb := h.base_eq
    generalize p.base.toNat / blockSize p.depth = k at hb
    rw [offset, hb, show 256 = blockSize 24 from rfl, blockSize_of_le (Nat.le_of_lt hd) hle,
      Nat.mul_comm k, Nat.mul_mod_mul_left, Nat.mul_comm]

theorem IsBlock.offset_add_span_le {p : Prefix} (h : p.IsBlock) (hd : 24 < p.depth) :
    offset p.base + span p.depth ≤ groupSize := by
  obtain ⟨c, k, h256, hc, -, -, ho⟩ := h.split_deep hd
  have hmod : k % c + 1 ≤ c := Nat.mod_lt k hc
  have hmul := Nat.mul_le_mul_right (blockSize p.depth) hmod
  rw [ho, span_deep hd]
  show _ ≤ 256
  rw [h256, Nat.mul_comm (blockSize p.depth)]
  rw [Nat.add_mul, Nat.one_mul] at hmul
  exact hmul

/-- The addresses of a deeper block are those of its one bucket whose last byte lies in its
range of slots. -/
theorem covers_iff_offset {p : Prefix} (h : p.IsBlock) (hd : 24 < p.depth) (a : Address) :
    p.Covers a ↔ bucket a = bucket p.base ∧
      offset p.base ≤ offset a ∧ offset a < offset p.base + span p.depth := by
  obtain ⟨c, k, h256, hc, hbase, hb, ho⟩ := h.split_deep hd
  have hpos := blockSize_pos p.depth
  rw [h.covers_iff a, hbase, Nat.mul_div_cancel _ hpos, hb, ho, span_deep hd]
  generalize blockSize p.depth = B at *
  -- the quotient of an address by the size of the block, digit by digit
  have hquot : a.toNat / B = bucket a * c + offset a / B := by
    have ha := bucket_offset a
    rw [← ha, h256, Nat.mul_comm B c, ← Nat.mul_assoc, Nat.add_comm, Nat.add_mul_div_right _ _ hpos,
      Nat.add_comm]
  have hlow : offset a / B < c := by
    rw [Nat.div_lt_iff_lt_mul hpos, Nat.mul_comm, ← h256]
    exact offset_lt a
  have hdigits := Nat.div_add_mod k c
  have hkmod := Nat.mod_lt k hc
  have hrange : k % c * B ≤ offset a ∧ offset a < k % c * B + B ↔ offset a / B = k % c := by
    rw [Nat.div_eq_iff hpos]
    omega
  rw [hrange, hquot]
  constructor
  · intro heq
    have hmod : (bucket a * c + offset a / B) % c = k % c := by rw [heq]
    have hdiv : (bucket a * c + offset a / B) / c = k / c := by rw [heq]
    rw [Nat.mul_comm, Nat.mul_add_mod, Nat.mod_eq_of_lt hlow] at hmod
    rw [Nat.mul_comm, Nat.mul_add_div hc, Nat.div_eq_of_lt hlow, Nat.add_zero] at hdiv
    exact ⟨hdiv, hmod⟩
  · intro h'
    obtain ⟨h1, h2⟩ := h'
    rw [h1, h2, Nat.mul_comm]
    exact hdigits

/-- The same by the slots of the group that resolves the bucket. -/
theorem covers_iff_slotRange {p : Prefix} (h : p.IsBlock) (hd : 24 < p.depth) (g : Nat)
    {a : Address} (ha : bucket a = bucket p.base) :
    p.Covers a ↔ (p.slotRange g).1 ≤ groupStart g + offset a ∧
      groupStart g + offset a < (p.slotRange g).2 := by
  rw [covers_iff_offset h hd]
  simp only [slotRange, ha, true_and]
  omega

/-- Two blocks of the same depth that cover an address are the same. -/
theorem Covers.of_eq {p : Prefix} {a : Address} (h : p.Covers a) : of a p.depth = p :=
  (of_eq_iff p a).mpr h

/-- A block covers both or neither of two addresses that share a deeper block. -/
theorem covers_congr (p : Prefix) {a b : Address} {e : Nat} (h : p.depth ≤ e)
    (hab : clip a e = clip b e) : p.Covers a ↔ p.Covers b := by
  rw [Covers, Covers, clip_eq_of_le h hab]

end Prefix

end Dir248
