/-! # Rounding to binary64

A non-negative rational `num / den` is rounded to the nearest binary64 number, a tie going to the
even one. A number is named by its bit pattern: `m · 2 ^ e` with `m < 2 ^ 53` and `-1074 ≤ e`,
normalised so that `2 ^ 52 ≤ m` or `e = -1074`, has the pattern `(e + 1074) · 2 ^ 52 + m`. Patterns
of non-negative numbers are ordered as the numbers are, and a mantissa rounded up to `2 ^ 53` gives
the pattern of the next power of two. -/

namespace LessonScript.Binary64

/-- The pattern of `2 ^ -1022`: one at the place of the bit that normalised mantissas begin with. -/
def leadingBit : Nat := 0x0010000000000000

def infinityBits : Nat := 0x7FF0000000000000

/-- The bit that a negative number has before the pattern of its absolute value. -/
def signBit : Nat := 0x8000000000000000

/-- The integer nearest to `num / den`, a tie going to the even one. -/
def roundHalfEven (num den : Nat) : Nat :=
  let q := num / den
  let r := num % den
  if den < 2 * r ∨ (2 * r = den ∧ q % 2 = 1) then q + 1 else q

/-- The numerator of `num / den / base ^ e`. -/
def scaledNum (base num : Nat) (e : Int) : Nat := num * Nat.pow base (-e).toNat

/-- The denominator of `num / den / base ^ e`. -/
def scaledDen (base den : Nat) (e : Int) : Nat := den * Nat.pow base e.toNat

/-- The greatest `e` with `2 ^ e ≤ num / den`, for positive `num` and `den`. -/
def floorLog2 (num den : Nat) : Int :=
  let e : Int := (num.log2 : Int) - den.log2
  if scaledDen 2 den e ≤ scaledNum 2 num e then e else e - 1

/-- The exponent to which `num / den` is rounded: fifty-three binary digits, the last one no smaller
than `2 ^ -1074`. -/
def roundingExponent (num den : Nat) : Int := max (floorLog2 num den - 52) (-1074)

/-- **The pattern of the number nearest to `num / den`**, infinity beyond the finite ones. -/
def nearest (num den : Nat) : Nat :=
  if num = 0 then 0 else
    let e := roundingExponent num den
    min infinityBits
      ((e + 1074).toNat * leadingBit + roundHalfEven (scaledNum 2 num e) (scaledDen 2 den e))

/-- The pattern of the number nearest to `coeff · 10 ^ exp`. An exponent so large or so small that
the answer is infinity or zero whatever the digits is not raised to. -/
def nearestDecimal (coeff : Nat) (exp : Int) : Nat :=
  if coeff = 0 then 0
  else if 400 < exp then infinityBits
  else if exp < 0 ∧ (coeff.log2 : Int) + 1100 < 3 * -exp then 0
  else nearest (coeff * Nat.pow 10 exp.toNat) (Nat.pow 10 (-exp).toNat)

/-- The number with a sign and the pattern of its absolute value. -/
def signed (negative : Bool) (bits : Nat) : Float :=
  Float.ofBits (UInt64.ofNat (if negative then signBit + bits else bits))

def ofInt (n : Int) : Float := signed (n < 0) (nearest n.natAbs 1)

def magnitude (x : Float) : Nat := x.toBits.toNat % signBit

def isNegative (x : Float) : Bool := signBit ≤ x.toBits.toNat

/-- The `m` and `e` of a pattern of a finite number `m · 2 ^ e`. -/
def decode (bits : Nat) : Nat × Int :=
  if bits < leadingBit then (bits, -1074)
  else (leadingBit + bits % leadingBit, (bits / leadingBit : Nat) - 1075)

end LessonScript.Binary64
