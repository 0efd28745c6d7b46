import LessonScript.Text.Blank

/-! # Conditions

A condition is cut at its leftmost comparison operator; where two operators begin at one place the
longer one counts. The right operand ends at the next operator, and what follows is dropped. -/

namespace LessonScript

inductive CompareOp
  | ge
  | le
  | eq
  | ne
  | gt
  | lt
deriving DecidableEq, Repr

namespace CompareOp

def symbol : CompareOp → Text
  | ge => ['>', '=']
  | le => ['<', '=']
  | eq => ['=', '=']
  | ne => ['!', '=']
  | gt => ['>']
  | lt => ['<']

/-- The operators in the order in which they are tried at one place: the longer ones first. -/
def scanOrder : List CompareOp := [ge, le, eq, ne, gt, lt]

/-- The operator at the front of a text, with the text after it. -/
def front? (t : Text) : Option (CompareOp × Text) :=
  scanOrder.findSome? fun op => (op.symbol.isPrefixOf? t).map fun rest => (op, rest)

/-- The text before the leftmost operator, the operator, and the text after it; `seen` holds the
characters already passed, the last one first. -/
def cutFrom (seen : Text) : Text → Option (Text × CompareOp × Text)
  | [] => none
  | c :: rest =>
    match front? (c :: rest) with
    | some (op, after) => some (seen.reverse, op, after)
    | none => cutFrom (c :: seen) rest

/-- The text before the leftmost operator, the operator, and the text after it. -/
def cut? (t : Text) : Option (Text × CompareOp × Text) := cutFrom [] t

end CompareOp

/-- Two operand texts and the operator between them. -/
structure Condition where
  lhs : Text
  op : CompareOp
  rhs : Text
deriving DecidableEq, Repr

/-- The condition written in a text, if there is an operator in it. -/
def Condition.ofText? (t : Text) : Option Condition :=
  (CompareOp.cut? t).map fun (lhs, op, after) =>
    let rhs := match CompareOp.cut? after with
      | some (before, _, _) => before
      | none => after
    ⟨lhs.trim, op, rhs.trim⟩

end LessonScript
