import Dir248.Limits

/-!
# Slots of the two arrays and their stored words

Both levels store one 32-bit word a slot, so that a single store publishes a whole entry:
the value (a next hop or a group number) in bits 0 to 23, the valid bit 24, the group bit
25 and the depth in bits 26 to 31. The group bit tells a pointer from a route on the
first level, and marks a slot of an allocated group on the second.

* **`Word.ofFields`** and its four readers — the layout; **`ofFields_fields`** says that a
  word is its fields, and **`value_ofFields`** to **`depth_ofFields`** what is kept of each.
* **`Entry`** — a first-level slot; **`Entry.decode_encode`** says that storing keeps an
  entry up to the width of its fields.
* **`Slot`** — a second-level slot; **`Slot.encode_decode`** says that every word is the
  word of the slot read from it.
-/

namespace Dir248

/-- What a matching rule contributes to an answer: its depth and its next hop. -/
structure Route where
  depth : Nat := 0
  nextHop : Nat := 0
deriving Repr, DecidableEq, Inhabited

/-! ### Words -/

/-- One stored slot. -/
abbrev Word := UInt32

namespace Word

/-- The next hop or group number of a stored slot. -/
def value (w : Word) : Nat := w.toNat % 2 ^ 24

/-- The valid bit. -/
def valid (w : Word) : Bool := w.toNat / 2 ^ 24 % 2 == 1

/-- The group bit. -/
def grouped (w : Word) : Bool := w.toNat / 2 ^ 25 % 2 == 1

/-- The depth field. -/
def depth (w : Word) : Nat := w.toNat / 2 ^ 26

/-- The word with the given fields; a depth counts modulo 64 and a value modulo 2 ^ 24. -/
def ofFields (depth value : Nat) (valid grouped : Bool) : Word :=
  .ofNat (depth % 64 * 2 ^ 26 + grouped.toNat * 2 ^ 25 + valid.toNat * 2 ^ 24 + value % 2 ^ 24)

theorem toNat_ofFields (depth value : Nat) (valid grouped : Bool) :
    (ofFields depth value valid grouped).toNat =
      depth % 64 * 2 ^ 26 + grouped.toNat * 2 ^ 25 + valid.toNat * 2 ^ 24 + value % 2 ^ 24 := by
  have hv := valid.toNat_le
  have hg := grouped.toNat_le
  simp only [ofFields, UInt32.toNat_ofNat']
  omega

@[simp] theorem value_ofFields (depth v : Nat) (valid grouped : Bool) :
    value (ofFields depth v valid grouped) = v % 2 ^ 24 := by
  have hv := valid.toNat_le
  have hg := grouped.toNat_le
  rw [value, toNat_ofFields]
  omega

@[simp] theorem valid_ofFields (depth value : Nat) (v grouped : Bool) :
    valid (ofFields depth value v grouped) = v := by
  rw [valid, toNat_ofFields]
  cases v <;> cases grouped <;> simp only [Bool.toNat_true, Bool.toNat_false, beq_iff_eq,
    beq_eq_false_iff_ne] <;> omega

@[simp] theorem grouped_ofFields (depth value : Nat) (valid g : Bool) :
    grouped (ofFields depth value valid g) = g := by
  rw [grouped, toNat_ofFields]
  cases valid <;> cases g <;> simp only [Bool.toNat_true, Bool.toNat_false, beq_iff_eq,
    beq_eq_false_iff_ne] <;> omega

@[simp] theorem depth_ofFields (d value : Nat) (valid grouped : Bool) :
    depth (ofFields d value valid grouped) = d % 64 := by
  have hv := valid.toNat_le
  have hg := grouped.toNat_le
  rw [depth, toNat_ofFields]
  omega

theorem toNat_bit (n : Nat) : (n % 2 == 1).toNat = n % 2 := by
  rcases Nat.mod_two_eq_zero_or_one n with h | h <;> simp [h]

/-- A word is its fields. -/
theorem ofFields_fields (w : Word) : ofFields (depth w) (value w) (valid w) (grouped w) = w := by
  apply UInt32.toNat_inj.mp
  have h := w.toNat_lt
  rw [toNat_ofFields, valid, grouped, toNat_bit, toNat_bit, depth, value]
  omega

end Word

/-! ### First-level slots -/

/-- A first-level slot: nothing, the best route for the whole bucket, or the group in
which resolution goes on. -/
inductive Entry where
  | invalid
  | leaf (route : Route)
  | group (index : Nat)
deriving Repr, DecidableEq, Inhabited

namespace Entry

/-- The stored form of an entry. -/
def encode : Entry → Word
  | invalid => 0
  | leaf r => .ofFields r.depth r.nextHop true false
  | group g => .ofFields 0 g true true

/-- The entry a stored word stands for. -/
def decode (w : Word) : Entry :=
  if w.valid then
    if w.grouped then .group w.value else .leaf ⟨w.depth, w.value⟩
  else .invalid

/-- The entry with its fields cut to the widths of a word. -/
def cut : Entry → Entry
  | invalid => invalid
  | leaf r => leaf ⟨r.depth % 64, r.nextHop % 2 ^ 24⟩
  | group g => group (g % 2 ^ 24)

/-- Whether a word holds the fields of the entry in full. -/
def fits (e : Entry) : Bool := e.cut == e

theorem decode_encode (e : Entry) : decode e.encode = e.cut := by
  cases e with
  | invalid => rfl
  | leaf r => simp [encode, decode, cut]
  | group g => simp [encode, decode, cut]

end Entry

/-! ### Second-level slots -/

/-- A second-level slot. An invalid slot keeps the depth and next hop it held; `occupied`
belongs to the whole group and says that the group is allocated. -/
structure Slot where
  valid : Bool := false
  route : Route := {}
  occupied : Bool := false
deriving Repr, DecidableEq, Inhabited

namespace Slot

/-- An unused slot of an allocated group. -/
def empty : Slot := ⟨false, {}, true⟩

/-- A slot of an allocated group that answers with a route. -/
def leaf (r : Route) : Slot := ⟨true, r, true⟩

/-- The route the slot answers with. -/
def answer (s : Slot) : Option Route := if s.valid then some s.route else none

/-- Whether a rule of the given depth may take the slot. -/
def yieldsTo (s : Slot) (depth : Nat) : Bool := !s.valid || decide (s.route.depth ≤ depth)

/-- The stored form of a slot. -/
def encode (s : Slot) : Word := .ofFields s.route.depth s.route.nextHop s.valid s.occupied

/-- The slot a stored word stands for. -/
def decode (w : Word) : Slot := ⟨w.valid, ⟨w.depth, w.value⟩, w.grouped⟩

/-- The slot with its fields cut to the widths of a word. -/
def cut (s : Slot) : Slot :=
  { s with route := ⟨s.route.depth % 64, s.route.nextHop % 2 ^ 24⟩ }

/-- Whether a word holds the fields of the slot in full. -/
def fits (s : Slot) : Bool := s.cut == s

theorem decode_encode (s : Slot) : decode s.encode = s.cut := by
  simp [encode, decode, cut]

theorem encode_decode (w : Word) : (decode w).encode = w := Word.ofFields_fields w

@[simp] theorem answer_leaf (r : Route) : (leaf r).answer = some r := rfl

@[simp] theorem answer_empty : empty.answer = none := rfl

end Slot

end Dir248
