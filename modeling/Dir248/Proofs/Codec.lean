import Dir248.Proofs.Arrays.Sweeps

/-!
# The words of the two levels

A word is built from its fields by shifts and masks, and since the fields do not overlap it is
their sum. A second-level slot uses all of it, so every word is the word of a slot. A first-level
entry has one of three shapes, told apart by two bits, and what a shape has no use for is lost: an
invalid entry is the word zero, and a pointer has no depth.

* **`Word.ofFields_eq_or`**, and **`Word.value_eq_and`** to **`Word.depth_eq_shift`** — the layout
  by shifts and masks.
* **`Word.valid_eq_testBit`** to **`Word.depth_eq_zero_iff`** — the bits that tell the shapes apart.
* **`Slot.decode_encode_of_lt`** — what a slot loses when it is stored.
* **`Entry.InRange`**, **`Entry.encode_inj`** — the entries that lose nothing, and their words.
* **`Entry.encode_decode_iff`** — the words that entries have.
* **`codec_laws`** — storing and reading on both levels.
-/

namespace Dir248

namespace Word

/-! ### Shifts and masks -/

/-- What lies below the bits of a multiple of `2 ^ k` is joined to it or added, which is the
same. -/
theorem or_eq_add (a : Nat) {b k : Nat} (hb : b < 2 ^ k) : a * 2 ^ k ||| b = a * 2 ^ k + b := by
  rw [Nat.mul_comm]
  exact (Nat.two_pow_add_eq_or_of_lt hb a).symm

/-- A word is its fields, each shifted to its place, joined. -/
theorem ofFields_eq_or (depth value : Nat) (valid grouped : Bool) :
    ofFields depth value valid grouped =
      UInt32.ofNat depth <<< 26 ||| (if grouped then (1 : UInt32) <<< 25 else 0) |||
        (if valid then (1 : UInt32) <<< 24 else 0) ||| (UInt32.ofNat value &&& 0x00FFFFFF) := by
  have hdepth : (UInt32.ofNat depth <<< 26).toNat = depth % 64 * 2 ^ 26 := by
    rw [UInt32.toNat_shiftLeft, UInt32.toNat_ofNat', Nat.shiftLeft_eq]
    show depth % 2 ^ 32 * 2 ^ 26 % 2 ^ 32 = _
    omega
  have hgrouped : (if grouped then (1 : UInt32) <<< 25 else 0).toNat = grouped.toNat * 2 ^ 25 := by
    cases grouped <;> rfl
  have hvalid : (if valid then (1 : UInt32) <<< 24 else 0).toNat = valid.toNat * 2 ^ 24 := by
    cases valid <;> rfl
  have hvalue : (UInt32.ofNat value &&& 0x00FFFFFF).toNat = value % 2 ^ 24 := by
    rw [UInt32.toNat_and, UInt32.toNat_ofNat']
    show value % 2 ^ 32 &&& 2 ^ 24 - 1 = _
    rw [Nat.and_two_pow_sub_one_eq_mod]
    omega
  have hg := grouped.toNat_le
  have hv := valid.toNat_le
  apply UInt32.toNat_inj.mp
  rw [UInt32.toNat_or, UInt32.toNat_or, UInt32.toNat_or, hdepth, hgrouped, hvalid, hvalue,
    toNat_ofFields]
  generalize depth % 64 = d, grouped.toNat = g, valid.toNat = v at hg hv ⊢
  -- field by field from the top, the bits so far end where the next field begins
  have h26 : d * 2 ^ 26 ||| g * 2 ^ 25 = (d * 2 + g) * 2 ^ 25 := by
    rw [or_eq_add d (by omega)]
    omega
  have h25 : (d * 2 + g) * 2 ^ 25 ||| v * 2 ^ 24 = ((d * 2 + g) * 2 + v) * 2 ^ 24 := by
    rw [or_eq_add _ (by omega)]
    omega
  rw [h26, h25, or_eq_add _ (Nat.mod_lt _ (by decide))]
  omega

theorem value_eq_and (w : Word) : w.value = (w &&& 0x00FFFFFF).toNat := by
  rw [UInt32.toNat_and]
  exact (Nat.and_two_pow_sub_one_eq_mod w.toNat 24).symm

theorem depth_eq_shift (w : Word) : w.depth = (w >>> 26).toNat := by
  rw [UInt32.toNat_shiftRight]
  exact (Nat.shiftRight_eq_div_pow w.toNat 26).symm

/-! ### The bits that tell the shapes apart -/

theorem valid_eq_testBit (w : Word) : w.valid = w.toNat.testBit 24 := by
  rw [valid, Nat.testBit_eq_decide_div_mod_eq]
  rfl

theorem grouped_eq_testBit (w : Word) : w.grouped = w.toNat.testBit 25 := by
  rw [grouped, Nat.testBit_eq_decide_div_mod_eq]
  rfl

/-- The depth of a word is zero when all bits of the field are. -/
theorem depth_eq_zero_iff (w : Word) : w.depth = 0 ↔ ∀ k, 26 ≤ k → w.toNat.testBit k = false := by
  rw [depth, Nat.div_eq_zero_iff_lt (by decide)]
  constructor
  · intro hlt k hk
    exact Nat.testBit_lt_two_pow (Nat.lt_of_lt_of_le hlt (Nat.pow_le_pow_right (by decide) hk))
  · exact Nat.lt_pow_two_of_testBit _

end Word

namespace Slot

/-! ### Second-level slots -/

/-- A slot whose next hop fits loses the high bits of its depth, and nothing else. -/
theorem decode_encode_of_lt {s : Slot} (h : s.route.nextHop < 2 ^ 24) :
    decode s.encode = { s with route := ⟨s.route.depth % 64, s.route.nextHop⟩ } := by
  rw [decode_encode, cut, Nat.mod_eq_of_lt h]

end Slot

namespace Entry

/-! ### First-level entries -/

/-- The fields of the entry fit the fields of a word. -/
def InRange : Entry → Prop
  | invalid => True
  | leaf r => r.Fits
  | group g => g < 2 ^ 24

/-- An entry in range is read back as it was stored. -/
theorem InRange.decode_encode {e : Entry} (h : e.InRange) : decode e.encode = e := by
  rw [Entry.decode_encode]
  cases e with
  | invalid => rfl
  | leaf r => exact cut_leaf h
  | group g => rw [cut, Nat.mod_eq_of_lt h]

/-- What is read from a word is in range. -/
theorem inRange_decode (w : Word) : (decode w).InRange := by
  have hdepth : w.depth < 64 := by
    have hlt := w.toNat_lt
    rw [Word.depth]
    omega
  have hvalue : w.value < 2 ^ 24 := Nat.mod_lt _ (by decide)
  unfold decode
  split
  · split
    · exact hvalue
    · exact ⟨hdepth, hvalue⟩
  · trivial

/-- Entries in range have different words. -/
theorem encode_inj {e e' : Entry} (h : e.InRange) (h' : e'.InRange) :
    e.encode = e'.encode ↔ e = e' := by
  constructor
  · intro heq
    rw [← h.decode_encode, heq, h'.decode_encode]
  · rintro rfl
    rfl

/-- The words that entries have: zero, those of the leaves, and those of the pointers, which have
no depth. -/
theorem encode_decode_iff (w : Word) : (decode w).encode = w ↔
    w = 0 ∨ (w.valid = true ∧ w.grouped = false) ∨
      (w.valid = true ∧ w.grouped = true ∧ w.depth = 0) := by
  have hzero : w = 0 → w.valid = false := by
    rintro rfl
    rfl
  have hword := Word.ofFields_fields w
  cases hvalid : w.valid with
  | false =>
    have hread : decode w = .invalid := by simp [decode, hvalid]
    rw [hread]
    simp only [Bool.false_eq_true, false_and, or_false]
    exact eq_comm
  | true =>
    have hne : w ≠ 0 := fun h => Bool.false_ne_true ((hzero h).symm.trans hvalid)
    cases hgrouped : w.grouped with
    | false =>
      have hread : decode w = .leaf ⟨w.depth, w.value⟩ := by simp [decode, hvalid, hgrouped]
      rw [hvalid, hgrouped] at hword
      rw [hread, encode, hword]
      simp
    | true =>
      have hread : decode w = .group w.value := by simp [decode, hvalid, hgrouped]
      rw [hvalid, hgrouped] at hword
      rw [hread, encode]
      simp only [hne, Bool.true_eq_false, and_false, true_and, false_or]
      constructor
      · intro h
        rw [← h, Word.depth_ofFields]
      · intro h
        rwa [h] at hword

end Entry

/-! ### Both levels -/

/-- Every word is the word of the slot read from it, and a slot whose next hop fits is read back
with its depth modulo 64. An entry in range is read back as it is, so different ones have different
words. What is read from a word is read again from its own word, which is the same word exactly if
that is zero, or has bit 24 set and bit 25 clear, or both set and all higher bits clear. -/
theorem codec_laws :
    (∀ w : Word, (Slot.decode w).encode = w) ∧
    (∀ s : Slot, s.route.nextHop < 2 ^ 24 →
      Slot.decode s.encode = { s with route := ⟨s.route.depth % 64, s.route.nextHop⟩ }) ∧
    (∀ e : Entry, e.InRange → Entry.decode e.encode = e) ∧
    (∀ w : Word, Entry.decode (Entry.decode w).encode = Entry.decode w) ∧
    (∀ w : Word, (Entry.decode w).encode = w ↔
      w = 0 ∨ (w.toNat.testBit 24 = true ∧ w.toNat.testBit 25 = false) ∨
        (w.toNat.testBit 24 = true ∧ w.toNat.testBit 25 = true ∧
          ∀ k, 26 ≤ k → w.toNat.testBit k = false)) ∧
    ∀ e e' : Entry, e.InRange → e'.InRange → e ≠ e' → e.encode ≠ e'.encode := by
  refine ⟨Slot.encode_decode, fun s => Slot.decode_encode_of_lt,
    fun e => Entry.InRange.decode_encode, fun w => (Entry.inRange_decode w).decode_encode,
    fun w => ?_, fun e e' h h' hne => ?_⟩
  · rw [Entry.encode_decode_iff, Word.valid_eq_testBit, Word.grouped_eq_testBit,
      Word.depth_eq_zero_iff]
  · exact fun heq => hne ((Entry.encode_inj h h').mp heq)

/-- A slot of depth 200 comes back with depth 8, a leaf of depth 24 as it is, and not as the pointer
with the same value. A pointer to group 7 that has a depth is read, and loses it. -/
theorem codec_laws_pointer :
    Slot.decode (Slot.encode ⟨true, ⟨200, 7⟩, true⟩) = ⟨true, ⟨8, 7⟩, true⟩ ∧
      Entry.decode (Entry.leaf ⟨24, 0xFFFFFF⟩).encode = .leaf ⟨24, 0xFFFFFF⟩ ∧
      (Entry.leaf ⟨24, 0xFFFFFF⟩).encode ≠ (Entry.group 0xFFFFFF).encode ∧
      Entry.decode 0x0B000007 = .group 7 ∧ (Entry.decode 0x0B000007).encode ≠ 0x0B000007 := by
  obtain ⟨-, hslot, hentry, -, hwords, hdiffer⟩ := codec_laws
  have hleaf : (Entry.leaf ⟨24, 0xFFFFFF⟩).InRange := ⟨by decide, by decide⟩
  have hgroup : (Entry.group 0xFFFFFF).InRange := by
    show 0xFFFFFF < 2 ^ 24
    decide
  refine ⟨hslot _ (by decide), hentry _ hleaf, hdiffer _ _ hleaf hgroup nofun, by decide,
    fun hsame => ?_⟩
  rcases (hwords _).mp hsame with hzero | ⟨-, hgrouped⟩ | ⟨-, -, hdepth⟩
  · exact absurd hzero (by decide)
  · exact absurd hgrouped (by decide)
  · exact absurd (hdepth 27 (by decide)) (by decide)

end Dir248
