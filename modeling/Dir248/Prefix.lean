import Dir248.Limits

/-!
# Addresses and prefixes

A prefix of depth `d` stands for all addresses that agree with its base on the first `d`
bits. Everything here is arithmetic on the value of an address: a block of depth `d`
holds `2 ^ (32 - d)` addresses, and clipping an address rounds it down to the start of
its block.

* **`clip`**, **`Prefix.of`**, **`Prefix.Covers`** — the block around an address.
* **`bucket`**, **`offset`**, **`groupStart`**, **`span`** — where a block lies in the arrays.
* **`toNat_clip`**, **`clip_clip`**, **`covers_of`** — clipping is rounding down, rounding
  twice is rounding once, and the block around an address covers it.
-/

namespace Dir248

/-- An address in host order: 10.0.0.1 is 0x0A000001. -/
abbrev Address := UInt32

/-! ### Depths -/

/-- The depths a rule may have. -/
def ValidDepth (depth : Nat) : Prop := 1 ≤ depth ∧ depth ≤ maxDepth

instance (depth : Nat) : Decidable (ValidDepth depth) := inferInstanceAs (Decidable (_ ∧ _))

/-- The depths a rule may have, shallowest first. -/
def depths : List Nat := List.range' 1 32

theorem mem_depths (depth : Nat) : depth ∈ depths ↔ ValidDepth depth := by
  simp only [depths, List.mem_range', ValidDepth, maxDepth]
  constructor
  · rintro ⟨i, hi, rfl⟩
    omega
  · intro h
    exact ⟨depth - 1, by omega, by omega⟩

/-- The number of addresses in a block of the given depth. -/
def blockSize (depth : Nat) : Nat := 2 ^ (32 - depth)

theorem blockSize_pos (depth : Nat) : 0 < blockSize depth := Nat.two_pow_pos _

/-- The netmask of a depth: that many leading ones. -/
def mask (depth : Nat) : Address := .ofNat (2 ^ 32 - blockSize depth)

/-! ### Blocks -/

/-- The first address of the block of the given depth around `a`. -/
def clip (a : Address) (depth : Nat) : Address :=
  .ofNat (a.toNat / blockSize depth * blockSize depth)

theorem toNat_clip (a : Address) (depth : Nat) :
    (clip a depth).toNat = a.toNat / blockSize depth * blockSize depth := by
  have h : a.toNat / blockSize depth * blockSize depth ≤ a.toNat := Nat.div_mul_le_self _ _
  simp only [clip, UInt32.toNat_ofNat']
  exact Nat.mod_eq_of_lt (Nat.lt_of_le_of_lt h a.toNat_lt)

theorem clip_clip (a : Address) (depth : Nat) : clip (clip a depth) depth = clip a depth := by
  apply UInt32.toNat_inj.mp
  rw [toNat_clip, toNat_clip, Nat.mul_div_cancel _ (blockSize_pos depth)]

/-- A block of addresses: those that agree with `base` on the first `depth` bits. -/
structure Prefix where
  base : Address
  depth : Nat
deriving Repr, DecidableEq, Inhabited

namespace Prefix

/-- The block of the given depth around an address. -/
def of (a : Address) (depth : Nat) : Prefix := ⟨clip a depth, depth⟩

/-- The addresses a prefix stands for. -/
def Covers (p : Prefix) (a : Address) : Prop := clip a p.depth = p.base

instance (p : Prefix) (a : Address) : Decidable (p.Covers a) :=
  inferInstanceAs (Decidable (_ = _))

theorem covers_of (a : Address) (depth : Nat) : (of a depth).Covers a := rfl

theorem of_eq_iff (p : Prefix) (a : Address) : of a p.depth = p ↔ p.Covers a := by
  cases p
  simp [of, Covers]

end Prefix

/-! ### Places in the two arrays -/

/-- The first-level slot an address falls into: its leading 24 bits. -/
def bucket (a : Address) : Nat := a.toNat / 256

/-- The place of an address inside its bucket: its last byte. -/
def offset (a : Address) : Nat := a.toNat % 256

theorem bucket_lt (a : Address) : bucket a < bucketCount := by
  have h := a.toNat_lt
  simp only [bucket, bucketCount]
  omega

theorem offset_lt (a : Address) : offset a < groupSize := Nat.mod_lt _ (by decide)

theorem bucket_offset (a : Address) : bucket a * 256 + offset a = a.toNat := by
  simp only [bucket, offset]
  omega

/-- The first second-level slot of a group. -/
def groupStart (group : Nat) : Nat := group * groupSize

/-- The number of slots a prefix of this depth takes: first-level slots up to depth 24,
second-level slots of one group beyond. -/
def span (depth : Nat) : Nat :=
  if depth ≤ bucketDepth then 2 ^ (bucketDepth - depth) else 2 ^ (maxDepth - depth)

end Dir248
