import LessonScript.Run.Error

/-! # The log of a run

A run keeps a log of what it did. -/

namespace LessonScript

/-- An entry of the log. -/
inductive Event
  /-- A run of a program of so many lines begins. -/
  | started (lines : Nat) (limit : Option Nat)
  /-- A statement is executed: it was read, and counted as a step. -/
  | executed (line : Nat) (kind : StatementKind)
  /-- An expression or an operand is evaluated. -/
  | evaluated (expr : Text)
  /-- A loop of so many turns begins. -/
  | looped (var : Text) (turns bodyLines : Nat)
  /-- The condition of a branch, with the values of its operands as text, is decided. -/
  | decided (lhs : Text) (op : CompareOp) (rhs : Text) (holds : Bool)
  | finished (steps globals : Nat) (ok : Bool)
  /-- The output is compared with the expected one. -/
  | graded (passed : Bool) (error : Option Text)
deriving DecidableEq, Repr

end LessonScript
