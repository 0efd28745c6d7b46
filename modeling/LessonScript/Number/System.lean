import LessonScript.Number.Layout
import LessonScript.Number.Numeral

/-! # Number systems

Programs are run over any *number system*: numbers that are counted, added, subtracted, multiplied,
divided, compared, written and read. The system of the command line is binary64; an exact one
serves to say what rounding is applied to. -/

namespace LessonScript

/-- The numbers that a program computes with. -/
class NumberSystem (ν : Type) extends Add ν, Sub ν, Mul ν, Div ν, BEq ν where
  /-- The number of an integer. -/
  ofInt : Int → ν
  /-- What stands for a number where there is none. -/
  nan : ν
  /-- The number that a text says, not a number if it says none. -/
  read : Text → ν
  write : ν → Text
  isNaN : ν → Bool
  /-- It is a number, and not infinite. -/
  isFinite : ν → Bool
  /-- The order of two numbers, none if one of them is not a number. -/
  compare? : ν → ν → Option Ordering

/-- What is not a number: the quiet pattern without a sign. -/
def Binary64.nan : Float := Float.ofBits 0x7FF8000000000000

/-- The number that a text says, not a number if it is no numeral. -/
def Binary64.read (t : Text) : Float :=
  match Numeral.ofText? t with
  | some n => n.toFloat
  | none => nan

/-- The order of two numbers, none if one of them is not a number. -/
def Binary64.compare? (x y : Float) : Option Ordering :=
  if x < y then some .lt
  else if x == y then some .eq
  else if y < x then some .gt
  else none

/-- Binary64 arithmetic. -/
instance : NumberSystem Float where
  ofInt := Binary64.ofInt
  nan := Binary64.nan
  read := Binary64.read
  write := NumberLayout.plain.write
  isNaN := Float.isNaN
  isFinite := Float.isFinite
  compare? := Binary64.compare?

end LessonScript
