import LessonScript.Number.Binary64
import LessonScript.Text.Digits

/-! # Numerals

A text is a numeral if, without the blanks around it, it is empty, or digits of base sixteen, eight
or two after `0x`, `0o` or `0b`, or a decimal or `Infinity` with a sign or none. A decimal has
digits with at most one point among, before or after them, and perhaps a power of ten. All digits
are ASCII.

The digits of a power of ten are read only until they come to `2 ^ 16` or more: what they say then
is kept, and the digits after that change nothing. No power so large makes a difference unless the
decimal has tens of thousands of digits. -/

namespace LessonScript

/-- The bases other than ten. -/
inductive Radix
  | hexadecimal
  | octal
  | binary
deriving DecidableEq, Repr

namespace Radix

def ofMark? (c : Char) : Option Radix :=
  if c = 'x' ∨ c = 'X' then some hexadecimal
  else if c = 'o' ∨ c = 'O' then some octal
  else if c = 'b' ∨ c = 'B' then some binary
  else none

def base : Radix → Nat
  | hexadecimal => 16
  | octal => 8
  | binary => 2

/-- The value of a digit, a letter in either case. -/
def digit? (r : Radix) (c : Char) : Option Nat :=
  let d :=
    if '0' ≤ c ∧ c ≤ '9' then some (c.toNat - '0'.toNat)
    else if 'a' ≤ c ∧ c ≤ 'f' then some (c.toNat - 'a'.toNat + 10)
    else if 'A' ≤ c ∧ c ≤ 'F' then some (c.toNat - 'A'.toNat + 10)
    else none
  d.filter (· < r.base)

end Radix

/-- What a numeral says. -/
inductive Numeral
  /-- Nothing, which counts as zero. -/
  | blank
  | radix (r : Radix) (digits : List Nat)
  | infinity (negative : Bool)
  /-- The number `coeff · 10 ^ exp`, with a sign. -/
  | decimal (negative : Bool) (coeff : Nat) (exp : Int)
deriving DecidableEq, Repr

namespace Numeral

/-- The digits at the front of a text, and the text after them. -/
def digitRun (t : Text) : Text × Text := (t.takeWhile Char.isDigit, t.dropWhile Char.isDigit)

/-- The exponent up to which the digits of a power of ten are read. -/
def exponentCap : Nat := 0x10000

/-- The number that the digits of a power of ten say, read up to the cap. -/
def cappedValue (t : Text) : Nat :=
  t.foldl (fun n c => if n < exponentCap then 10 * n + (c.toNat - '0'.toNat) else n) 0

/-- The digits of a power of ten, if they take up the whole text. -/
def powerDigits? (t : Text) : Option Int :=
  if t ≠ [] ∧ t.all Char.isDigit then some (cappedValue t) else none

/-- A power of ten that takes up the whole text: a sign or none, and digits. -/
def power? : Text → Option Int
  | '+' :: t => powerDigits? t
  | '-' :: t => (powerDigits? t).map fun n => -n
  | t => powerDigits? t

/-- The exponent that takes up the whole text after the digits of a decimal: zero if the text is
empty. -/
def exponent? : Text → Option Int
  | [] => some 0
  | c :: t => if c = 'e' ∨ c = 'E' then power? t else none

/-- The digits after the point at the front of a text, and the text after them; no digits without a
point. -/
def fraction : Text → Text × Text
  | '.' :: t => digitRun t
  | t => ([], t)

def decimal? (negative : Bool) (t : Text) : Option Numeral :=
  let (whole, rest) := digitRun t
  let (frac, rest) := fraction rest
  if whole ++ frac = [] then none
  else (exponent? rest).map fun e =>
    .decimal negative (Text.digitsValue (whole ++ frac)) (e - frac.length)

def infinityText : Text := "Infinity".toList

/-- A decimal or infinity without a sign. -/
def unsigned? (negative : Bool) (t : Text) : Option Numeral :=
  if t = infinityText then some (.infinity negative) else decimal? negative t

def signed? : Text → Option Numeral
  | '+' :: t => unsigned? false t
  | '-' :: t => unsigned? true t
  | t => unsigned? false t

def radix? (r : Radix) (t : Text) : Option Numeral :=
  if t = [] then none else (t.mapM r.digit?).map (.radix r)

/-- The numeral that a text without blanks around it is. -/
def ofTrimmed? : Text → Option Numeral
  | [] => some .blank
  | '0' :: c :: t =>
    match Radix.ofMark? c with
    | some r => radix? r t
    | none => signed? ('0' :: c :: t)
  | t => signed? t

/-- **The numeral that a text is**, if it is one. -/
def ofText? (t : Text) : Option Numeral := ofTrimmed? t.trim

/-- The binary64 number of a numeral. A decimal is rounded once; with any other base every digit
taken in is rounded. -/
def toFloat : Numeral → Float
  | blank => Binary64.ofInt 0
  | radix r digits =>
    let base := Binary64.ofInt r.base
    digits.foldl (fun x (d : Nat) => x * base + Binary64.ofInt d) (Binary64.ofInt 0)
  | infinity negative => Binary64.signed negative Binary64.infinityBits
  | decimal negative coeff exp => Binary64.signed negative (Binary64.nearestDecimal coeff exp)

end Numeral

end LessonScript
