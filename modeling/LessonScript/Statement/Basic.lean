import LessonScript.Statement.Condition
import LessonScript.Statement.Range

/-! # Statements

The shapes that a line of a program can have. -/

namespace LessonScript

/-- What one line says. -/
inductive Statement
  /-- Nothing: a blank line or a comment. -/
  | skip
  | print (expr : Text)
  | assign (target value : Text)
  /-- Run the block below once for each integer of a range. -/
  | loop (var : Text) (range : Range)
  /-- Run the block below if a condition holds. -/
  | branch (cond : Condition)
  /-- A line of no known shape. -/
  | unrecognized (text : Text)
deriving DecidableEq, Repr

inductive StatementKind
  | skip
  | print
  | assign
  | loop
  | branch
  | unrecognized
deriving DecidableEq, Repr

def Statement.kind : Statement → StatementKind
  | skip => .skip
  | print _ => .print
  | assign _ _ => .assign
  | loop _ _ => .loop
  | branch _ => .branch
  | unrecognized _ => .unrecognized

/-- The name of a kind, as listings and logs show it. -/
def StatementKind.name : StatementKind → Text
  | skip => "skip".toList
  | print => "print".toList
  | assign => "assign".toList
  | loop => "for".toList
  | branch => "if".toList
  | unrecognized => "unrecognized".toList

/-- Why the header of a block cannot be read. -/
inductive HeaderFault
  /-- The arguments of a range are missing, or there are too many. -/
  | range
  /-- There is no comparison operator in the condition. -/
  | condition
deriving DecidableEq, Repr

def HeaderFault.message : HeaderFault → Text
  | range => "Invalid range() arguments".toList
  | condition => "Invalid if condition".toList

end LessonScript
