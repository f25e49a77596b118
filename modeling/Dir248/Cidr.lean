import Dir248.Prefix

/-!
# Prefixes as text

A prefix is written as four decimal numbers with dots between them and, behind a slash,
its depth: `10.1.0.0/16`. Each number has one to three digits and is below 256, the depth
has one or two digits and is at most 32, leading zeros count as digits, and nothing may
stand before, between or behind. Bits of the address beyond the depth are dropped.

* **`number?`** — a number of bounded length and size at the head of a text.
* **`Prefix.parse?`** — the prefix a text stands for.
* **`number?_shorter`** — reading a number uses up at least one character.
-/

namespace Dir248

namespace Cidr

/-- The value of decimal digits. -/
def decimal (digits : List Char) : Nat :=
  digits.foldl (fun n c => n * 10 + (c.toNat - '0'.toNat)) 0

/-- The number at the head of a text, of at most `most` digits and below `bound`, and what
follows it. -/
def number? (most bound : Nat) (text : List Char) : Option (Nat × List Char) :=
  let digits := (text.take most).takeWhile Char.isDigit
  if digits.isEmpty ∨ bound ≤ decimal digits then none
  else some (decimal digits, text.drop digits.length)

theorem number?_shorter (most bound n : Nat) (text rest : List Char)
    (h : number? most bound text = some (n, rest)) : rest.length < text.length := by
  simp only [number?] at h
  split at h
  · cases h
  · next hd =>
    cases h
    have hlen : ((text.take most).takeWhile Char.isDigit).length ≤ text.length :=
      Nat.le_trans (List.takeWhile_prefix _).length_le
        (by rw [List.length_take]; exact Nat.min_le_right _ _)
    have hpos : 0 < ((text.take most).takeWhile Char.isDigit).length := by
      rw [List.length_pos_iff]
      intro he
      exact hd (Or.inl (by rw [he]; rfl))
    rw [List.length_drop]
    omega

/-- What follows a given character at the head of a text. -/
def after? (c : Char) : List Char → Option (List Char)
  | [] => none
  | d :: rest => if d = c then some rest else none

/-- One of the four numbers of an address. -/
def octet? : List Char → Option (Nat × List Char) := number? 3 256

/-- The address at the head of a text. -/
def address? (text : List Char) : Option (Address × List Char) := do
  let (a, text) ← octet? text
  let text ← after? '.' text
  let (b, text) ← octet? text
  let text ← after? '.' text
  let (c, text) ← octet? text
  let text ← after? '.' text
  let (d, text) ← octet? text
  return (.ofNat (((a * 256 + b) * 256 + c) * 256 + d), text)

end Cidr

/-- The prefix a text stands for. -/
def Prefix.parse? (text : String) : Option Prefix := do
  let (a, text) ← Cidr.address? text.toList
  let text ← Cidr.after? '/' text
  let (depth, text) ← Cidr.number? 2 33 text
  if text.isEmpty then some (.of a depth) else none

end Dir248
