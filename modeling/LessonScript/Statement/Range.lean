import LessonScript.Text.Digits

/-! # Counting ranges

The arguments of a counting loop are one bound or two, separated by a comma. A bound is read from
the digits at its front, with an optional sign; it has to fit a signed 64-bit word. Arguments with
a bound that cannot be read count nothing. -/

namespace LessonScript

/-- The integers from `start` up to, not including, `stop`. -/
structure Range where
  start : Int
  stop : Int
deriving DecidableEq, Repr

namespace Range

/-- The range of arguments with an unreadable bound. -/
def nothing : Range := ⟨0, 0⟩

/-- How many integers the range holds. -/
def size (r : Range) : Nat := (r.stop - r.start).toNat

/-- The integer fits a signed 64-bit word. -/
def Fits (n : Int) : Prop := -9223372036854775808 ≤ n ∧ n ≤ 9223372036854775807

instance (n : Int) : Decidable (Fits n) := by unfold Fits; infer_instance

/-- The number written by the digits at the front of a text, if there is a digit. -/
def leadingNat? (t : Text) : Option Nat :=
  match t.takeWhile Char.isDigit with
  | [] => none
  | digits => some (Text.digitsValue digits)

/-- The integer at the front of a text: a sign or none, and digits. -/
def leadingInt? : Text → Option Int
  | '+' :: rest => (leadingNat? rest).map Int.ofNat
  | '-' :: rest => (leadingNat? rest).map fun n => -Int.ofNat n
  | t => (leadingNat? t).map Int.ofNat

/-- The bound at the front of a text, if there is one and it fits. -/
def bound? (t : Text) : Option Int := (leadingInt? t).filter fun n => Fits n

/-- The range that a list of trimmed arguments gives, if there are one or two. -/
def ofParts? : List Text → Option Range
  | [stop] => some (((bound? stop).map fun b => ⟨0, b⟩).getD nothing)
  | [start, stop] =>
    some (((bound? start).bind fun a => (bound? stop).map fun b => ⟨a, b⟩).getD nothing)
  | _ => none

/-- The range of an argument text: none if the text is blank or has more than two arguments. -/
def ofText? (t : Text) : Option Range :=
  if t.trim = [] then none else ofParts? ((t.splitOn ',').map Text.trim)

end Range

end LessonScript
