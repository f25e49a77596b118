/-!
# Hexadecimal text

Numbers as `0x` and at least a given count of lower-case hexadecimal digits, filled up
with zeros on the left.

* **`hex`** — the text.
-/

namespace Dir248.Text

/-- The number in lower-case hexadecimal, with at least `width` digits behind `0x`. -/
def hex (width n : Nat) : String :=
  let digits := Nat.toDigits 16 n
  "0x" ++ String.ofList (List.replicate (width - digits.length) '0' ++ digits)

/-- The zeros fill up to the width, and a longer number keeps all its digits. -/
example : hex 8 0xA0102 = "0x000a0102" ∧ hex 6 0x1234567 = "0x1234567" := by
  constructor <;> decide +kernel

end Dir248.Text
