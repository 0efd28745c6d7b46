import LessonScript.Number.System
import Mathlib.Algebra.Order.Ring.Rat

/-! # Exact numbers

The rational numbers, with nothing rounded. What has no rational value, such as infinity or a
quotient by zero, is not a number. -/

namespace LessonScript

/-- A rational number, or what takes its place where there is none. -/
inductive Exact
  | rational (q : ℚ)
  | notANumber
deriving DecidableEq, Repr

/-- The rational number of a numeral; infinity has none. -/
def Numeral.toExact : Numeral → Exact
  | blank => .rational 0
  | radix r digits =>
    let n : Nat := digits.foldl (fun n d => n * r.base + d) 0
    .rational n
  | infinity _ => .notANumber
  | decimal negative coeff exp =>
    let q : ℚ := coeff * Nat.pow 10 exp.toNat / Nat.pow 10 (-exp).toNat
    .rational (if negative then -q else q)

namespace Exact

/-- What two rational numbers give; nothing comes of anything else. -/
def combine (f : ℚ → ℚ → Exact) : Exact → Exact → Exact
  | rational p, rational q => f p q
  | _, _ => notANumber

instance : Add Exact := ⟨combine fun p q => rational (p + q)⟩

instance : Sub Exact := ⟨combine fun p q => rational (p - q)⟩

instance : Mul Exact := ⟨combine fun p q => rational (p * q)⟩

instance : Div Exact := ⟨combine fun p q => if q = 0 then notANumber else rational (p / q)⟩

/-- What is not a number is not equal to itself. -/
instance : BEq Exact where
  beq
    | rational p, rational q => p == q
    | _, _ => false

/-- The number that a text says, not a number if it is no numeral. -/
def read (t : Text) : Exact :=
  match Numeral.ofText? t with
  | some n => n.toExact
  | none => notANumber

/-- An integer as its digits, any other number as the quotient of two integers. -/
def write : Exact → Text
  | rational q =>
    (if q < 0 then ['-'] else []) ++ Nat.toDigits 10 q.num.natAbs ++
      if q.den = 1 then [] else '/' :: Nat.toDigits 10 q.den
  | notANumber => NumberLayout.plain.notANumber

def isNumber : Exact → Bool
  | rational _ => true
  | notANumber => false

/-- The order of two numbers, none if one of them is not a number. -/
def compare? : Exact → Exact → Option Ordering
  | rational p, rational q => some (compare p q)
  | _, _ => none

end Exact

/-- Arithmetic without rounding. -/
instance : NumberSystem Exact where
  ofInt n := .rational n
  nan := .notANumber
  read := Exact.read
  write := Exact.write
  isNaN x := !x.isNumber
  isFinite := Exact.isNumber
  compare? := Exact.compare?

end LessonScript
