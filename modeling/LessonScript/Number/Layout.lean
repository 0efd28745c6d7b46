import LessonScript.Number.Shortest
import LessonScript.Text.Blank

/-! # How numbers are written

A number is written by the digits of its shortest decimal, with a point or with zeros where its
size allows that, and with a power of ten otherwise. -/

namespace LessonScript

/-- The decisions of a way to write numbers. The *point* of a number is the place of its decimal
point, counted from the front of its digits. -/
structure NumberLayout where
  /-- The least point that is written without a power of ten. -/
  leastPoint : Int
  /-- The greatest point that is written without a power of ten. -/
  greatestPoint : Int
  exponentMark : Char
  notANumber : Text
  infinity : Text

namespace NumberLayout

/-- A point from five places before the digits to twenty-one places into them is written without a
power of ten; the power of ten has a sign, and no padding. -/
def plain : NumberLayout where
  leastPoint := -5
  greatestPoint := 21
  exponentMark := 'e'
  notANumber := "NaN".toList
  infinity := "Infinity".toList

/-- The digits with a point inside them, before them or, as zeros, behind them. -/
def positional (digits : Text) (point : Int) : Text :=
  if digits.length ≤ point then digits ++ List.replicate (point.toNat - digits.length) '0'
  else if 0 < point then digits.take point.toNat ++ '.' :: digits.drop point.toNat
  else '0' :: '.' :: List.replicate (-point).toNat '0' ++ digits

/-- The digits with the point after the first one, and the power of ten that moves it to its
place. -/
def scientific (l : NumberLayout) (digits : Text) (point : Int) : Text :=
  let exp := point - 1
  let fraction := digits.drop 1
  digits.take 1 ++ (if fraction = [] then [] else '.' :: fraction) ++
    l.exponentMark :: (if exp < 0 then '-' else '+') :: Nat.toDigits 10 exp.natAbs

/-- A positive decimal. -/
def decimal (l : NumberLayout) (d : Decimal) : Text :=
  let digits := Nat.toDigits 10 d.coeff
  let point := digits.length + d.exp
  if l.leastPoint ≤ point ∧ point ≤ l.greatestPoint then positional digits point
  else l.scientific digits point

/-- The absolute value of a number, given by its pattern; zero has no sign. -/
def magnitude (l : NumberLayout) (bits : Nat) : Text :=
  if bits = 0 then ['0']
  else if bits < Binary64.infinityBits then l.decimal (.shortest bits)
  else l.infinity

/-- **A number as a text.** -/
def write (l : NumberLayout) (x : Float) : Text :=
  if x.isNaN then l.notANumber
  else if Binary64.isNegative x && Binary64.magnitude x != 0 then
    '-' :: l.magnitude (Binary64.magnitude x)
  else l.magnitude (Binary64.magnitude x)

end NumberLayout

end LessonScript
