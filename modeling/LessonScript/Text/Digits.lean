import LessonScript.Text.Blank

/-! # Decimal digits

The number that a run of decimal digits says. Digits are taken in one after the other, in blocks: a
block is worked out on its own and joined to the number before it when it is full, so that long
runs do not multiply a long number by ten for every digit. `digitsValue_eq` says that this is the
usual value. -/

namespace LessonScript

/-- A number `high · scale + low` that is read digit by digit. -/
structure DigitBlock where
  /-- What the full blocks come to. -/
  high : Nat
  /-- What the last block comes to. -/
  low : Nat
  /-- Ten to the number of digits in the last block. -/
  scale : Nat

namespace DigitBlock

def start : DigitBlock := ⟨0, 0, 1⟩

def value (b : DigitBlock) : Nat := b.high * b.scale + b.low

/-- The last block has its share of digits. -/
def isFull (b : DigitBlock) : Bool := 2048 ≤ b.scale.log2

def push (b : DigitBlock) (c : Char) : DigitBlock :=
  let d := c.toNat - '0'.toNat
  if b.isFull then ⟨b.value, d, 10⟩ else ⟨b.high, 10 * b.low + d, 10 * b.scale⟩

theorem value_push (b : DigitBlock) (c : Char) :
    (b.push c).value = 10 * b.value + (c.toNat - '0'.toNat) := by
  unfold push
  split
  · simp only [value, Nat.mul_comm]
  · simp only [value, Nat.mul_add, Nat.add_assoc, Nat.mul_left_comm]

end DigitBlock

namespace Text

/-- The number that decimal digits say. -/
def digitsValue (t : Text) : Nat := (t.foldl DigitBlock.push .start).value

theorem value_foldl_push (t : Text) (b : DigitBlock) :
    (t.foldl DigitBlock.push b).value = Nat.ofDigitChars 10 t b.value := by
  induction t generalizing b with
  | nil => rfl
  | cons c t ih => rw [List.foldl_cons, ih, DigitBlock.value_push]; rfl

/-- **The value in blocks is the usual one.** -/
theorem digitsValue_eq (t : Text) : digitsValue t = Nat.ofDigitChars 10 t 0 :=
  value_foldl_push t .start

end Text

end LessonScript
