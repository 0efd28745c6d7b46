import LessonScript.Expression
import LessonScript.Statement.Basic

/-! # Errors of a run

An error belongs to one of five kinds, and its message begins with the name of the kind. -/

namespace LessonScript

/-- What can end a run early. -/
inductive RunError
  | evaluation (error : EvalError)
  /-- The header of a block cannot be read. -/
  | header (fault : HeaderFault)
  /-- A line has no known shape. -/
  | unsupported (line : Text)
  /-- The run takes more steps than it may. -/
  | stepLimit (limit : Nat)
deriving DecidableEq, Repr

inductive ErrorKind
  | nameError
  | syntaxError
  | typeError
  | zeroDivisionError
  | runtimeError
deriving DecidableEq, Repr

def ErrorKind.name : ErrorKind → Text
  | nameError => "NameError".toList
  | syntaxError => "SyntaxError".toList
  | typeError => "TypeError".toList
  | zeroDivisionError => "ZeroDivisionError".toList
  | runtimeError => "RuntimeError".toList

namespace EvalError

def kind : EvalError → ErrorKind
  | unbound _ => .nameError
  | operandType _ => .typeError
  | zeroDivision => .zeroDivisionError

def detail : EvalError → Text
  | unbound name => "name '".toList ++ name ++ "' is not defined".toList
  | operandType op => "unsupported operand type(s) for ".toList ++ [op.symbol]
  | zeroDivision => "division by zero".toList

end EvalError

namespace RunError

def kind : RunError → ErrorKind
  | evaluation e => e.kind
  | header _ => .syntaxError
  | unsupported _ => .syntaxError
  | stepLimit _ => .runtimeError

/-- What is said about an error, without its kind. -/
def detail : RunError → Text
  | evaluation e => e.detail
  | header fault => fault.message
  | unsupported line => "Unsupported syntax on line: \"".toList ++ line ++ ['"']
  | stepLimit limit => "step limit of ".toList ++ Nat.toDigits 10 limit ++ " exceeded".toList

/-- **The message of an error.** -/
def message (e : RunError) : Text := e.kind.name ++ ": ".toList ++ e.detail

end RunError

end LessonScript
