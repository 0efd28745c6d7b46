import LessonScript.Scope

/-! # Expressions

An expression is evaluated as a text. It is a quoted text, a bound name or a numeral, or else it is
cut at all places of one operator: of `+` if there is one in it, otherwise of `-`, of `*`, of `/`.
The pieces are evaluated from left to right, and what is left of an operator is never cut again at
it. There are no brackets, and a sign is an operator.

`evaluate` gives the value or the first error; `visits` lists the texts it evaluates, in order. -/

namespace LessonScript

inductive Operator
  | add
  | sub
  | mul
  | div
deriving DecidableEq, Repr

namespace Operator

def symbol : Operator → Char
  | add => '+'
  | sub => '-'
  | mul => '*'
  | div => '/'

/-- The operators from the loosest to the tightest. -/
def all : List Operator := [add, sub, mul, div]

end Operator

/-- What can be wrong with an expression. -/
inductive EvalError
  /-- A text that is no literal, no numeral, no bound name, and has no operator in it. -/
  | unbound (name : Text)
  /-- An operand that is not number-like. -/
  | operandType (op : Operator)
  | zeroDivision
deriving DecidableEq, Repr

variable {ν : Type} [NumberSystem ν]

/-- The first number combined with the others one after the other; the fallback if there are none,
which is never so for the pieces of a text. -/
def combineNumbers (f : ν → ν → ν) (fallback : ν) : List ν → ν
  | [] => fallback
  | x :: xs => xs.foldl f x

/-- The values of the operands combined. Numbers are added up from zero, and anything else joined
as text; a product is taken from one, with any text a number; of the divisors only the first one
may not be zero. -/
def Operator.combine (op : Operator) (vs : List (Value ν)) : Except EvalError (Value ν) :=
  let numbers := vs.map Value.toNumber
  match op with
  | add =>
    if vs.all Value.isNumberLike then
      .ok (.number (numbers.foldl (· + ·) (NumberSystem.ofInt 0)))
    else .ok (.text (vs.flatMap Value.toText))
  | sub =>
    if vs.all Value.isNumberLike then
      .ok (.number (combineNumbers (· - ·) (NumberSystem.ofInt 0) numbers))
    else .error (.operandType sub)
  | mul => .ok (.number (numbers.foldl (· * ·) (NumberSystem.ofInt 1)))
  | div =>
    if (numbers[1]?).any (· == NumberSystem.ofInt 0) then .error .zeroDivision
    else .ok (.number (combineNumbers (· / ·) NumberSystem.nan numbers))

namespace Expression

/-- The text between two quotes, if that quote is not inside it. -/
def quotedBy? (quote : Char) (e : Text) : Option Text :=
  (([quote].isPrefixOf? e).bind fun rest => [quote].isSuffixOf? rest).filter fun inner =>
    !inner.contains quote

/-- The text of a literal, in single or double quotes. -/
def literal? (e : Text) : Option Text := (quotedBy? '\'' e).or (quotedBy? '"' e)

/-- The finite number that a text says. -/
def numeral? (e : Text) : Option ν :=
  let n : ν := NumberSystem.read e
  if NumberSystem.isFinite n then some n else none

/-- The value of a text that is not cut: a literal, else a bound name, else a numeral. -/
def atom? (s : Scope ν) (e : Text) : Option (Value ν) :=
  ((literal? e).map Value.text).or ((s.read? e).or ((numeral? e).map Value.number))

/-- The value of an operand; `compound` evaluates one that is no atom. -/
def operand (s : Scope ν) (compound : Text → Except EvalError (Value ν)) (t : Text) :
    Except EvalError (Value ν) :=
  match atom? s t.trim with
  | some v => .ok v
  | none => compound t.trim

/-- The value of a text that is no atom, cut at the first of the operators that is in it. -/
def compound (s : Scope ν) : List Operator → Text → Except EvalError (Value ν)
  | [], e => .error (.unbound e)
  | op :: ops, e =>
    if e.contains op.symbol then do
      op.combine (← (e.splitOn op.symbol).mapM (operand s (compound s ops)))
    else compound s ops e

/-- The texts evaluated for an operand: its own, then those that `pieces` lists if it is no
atom. -/
def operandVisits (s : Scope ν) (pieces : Text → List Text) (t : Text) : List Text :=
  t.trim :: (match atom? s t.trim with
    | some _ => []
    | none => pieces t.trim)

/-- The texts evaluated for a text that is no atom, up to the first operand that fails. -/
def compoundVisits (s : Scope ν) : List Operator → Text → List Text
  | [], _ => []
  | op :: ops, e =>
    if e.contains op.symbol then
      let parts := e.splitOn op.symbol
      let succeeds := fun t => (operand s (compound s ops) t).isOk
      (parts.takeWhile succeeds ++ (parts.dropWhile succeeds).take 1).flatMap
        (operandVisits s (compoundVisits s ops))
    else compoundVisits s ops e

end Expression

/-- **The value of an expression** in a scope, or its first error. -/
def evaluate (s : Scope ν) (e : Text) : Except EvalError (Value ν) :=
  Expression.operand s (Expression.compound s Operator.all) e

/-- The texts that `evaluate` evaluates, in order. -/
def visits (s : Scope ν) (e : Text) : List Text :=
  Expression.operandVisits s (Expression.compoundVisits s Operator.all) e

end LessonScript
