import LessonScript.Number.Binary64

/-! # The shortest decimal of a number

The shortest decimal of a finite positive binary64 number is the one on the coarsest decimal grid
(the multiples of one power of ten) that has a point rounding to the number. If a grid has such a
point then one of the two points next to the number is one; of two, the nearer counts, and the
upper one if both are equally near. -/

namespace LessonScript

/-- The decimal `coeff · 10 ^ exp`. -/
structure Decimal where
  coeff : Nat
  exp : Int
deriving DecidableEq, Repr

namespace Decimal

open Binary64

/-- The decimal rounds to the number with the given pattern. -/
def roundsTo (bits : Nat) (d : Decimal) : Bool := nearestDecimal d.coeff d.exp == bits

/-- The point of the grid of `10 ^ exp` that is next to `num / den` and rounds to the number with
the given pattern; the nearer one of two. -/
def onGrid? (num den bits : Nat) (exp : Int) : Option Decimal :=
  let n := scaledNum 10 num exp
  let d := scaledDen 10 den exp
  let below : Decimal := ⟨n / d, exp⟩
  let above : Decimal := ⟨n / d + 1, exp⟩
  if below.roundsTo bits then
    if above.roundsTo bits && d ≤ 2 * (n % d) then some above else some below
  else if above.roundsTo bits then some above else none

/-- An exponent whose grid is too coarse for any number `m · 2 ^ e` to round to it: above the
decimal exponent of the number. -/
def coarse (m : Nat) (e : Int) : Int := ((m.log2 : Int) + e + 1) * 30103 / 100000 + 2

/-- The number `m · 2 ^ e` itself. -/
def exact (m : Nat) (e : Int) : Decimal := ⟨m * Nat.pow 2 e.toNat * Nat.pow 5 (-e).toNat, min e 0⟩

/-- **The shortest decimal** that rounds to the finite positive number with the given pattern.
Seventeen digits always suffice, so a grid is found among the first twenty-two. -/
def shortest (bits : Nat) : Decimal :=
  let (m, e) := decode bits
  let num := m * Nat.pow 2 e.toNat
  let den := Nat.pow 2 (-e).toNat
  ((List.range 22).findSome? fun (i : Nat) => onGrid? num den bits (coarse m e - i)).getD (exact m e)

end Decimal

end LessonScript
