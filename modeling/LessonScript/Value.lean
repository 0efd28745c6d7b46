import LessonScript.Number.System
import LessonScript.Statement.Condition
import LessonScript.Text.Units

/-! # Values

A value is a number or a text. A text counts as the number that it says; two texts are compared as
texts, and any other two values as numbers. -/

namespace LessonScript

inductive Value (ν : Type)
  | number (n : ν)
  | text (t : Text)
deriving DecidableEq, Repr

variable {ν : Type} [NumberSystem ν]

namespace Value

/-- The value as a text, the way it is printed. -/
def toText : Value ν → Text
  | number n => NumberSystem.write n
  | text t => t

/-- The value as a number; a text that says none is not a number. -/
def toNumber : Value ν → ν
  | number n => n
  | text t => NumberSystem.read t

/-- The value is a number, or a text that says one. -/
def isNumberLike : Value ν → Bool
  | number _ => true
  | text t => !NumberSystem.isNaN (NumberSystem.read t : ν)

/-- Equality: of texts as texts, otherwise of numbers. -/
def looseEq : Value ν → Value ν → Bool
  | text s, text t => s == t
  | a, b => a.toNumber == b.toNumber

/-- The order: of texts by their units, otherwise of numbers; none beside what is not a number. -/
def compare? : Value ν → Value ν → Option Ordering
  | text s, text t => some (Text.compareUnits s t)
  | a, b => NumberSystem.compare? a.toNumber b.toNumber

end Value

/-- The comparison holds between two values. Without an order all but `!=` are false. -/
def CompareOp.holds (op : CompareOp) (a b : Value ν) : Bool :=
  match op with
  | eq => a.looseEq b
  | ne => !a.looseEq b
  | gt => a.compare? b == some .gt
  | lt => a.compare? b == some .lt
  | ge => a.compare? b == some .gt || a.compare? b == some .eq
  | le => a.compare? b == some .lt || a.compare? b == some .eq

end LessonScript
