import LessonScript.Statement.Basic
import LessonScript.Text.Word

/-! # Reading statements

A line is read by trying the shapes in a fixed order, and the first that matches counts: nothing,
a print call, an assignment, the header of a loop, the header of a branch. A line of no shape is
kept as it is; only the arguments of a range and the condition of a branch can be at fault. -/

namespace LessonScript.Statement

open Text

/-- The text between `print(` and a final `)`. -/
def printed? (t : Text) : Option Text :=
  ("print(".toList.isPrefixOf? t).bind fun rest => [')'].isSuffixOf? rest

/-- The word before the first `=` and the text after it. -/
def assigned? (t : Text) : Option (Text × Text) := do
  let (target, rest) ← word? t
  let value ← ['='].isPrefixOf? (trimStart rest)
  return (target, trimStart value)

/-- The variable and the arguments of `for … in range(…):`. -/
def loopHeader? (t : Text) : Option (Text × Text) := do
  let (var, rest) ← word? (← afterBlanks? (← "for".toList.isPrefixOf? t))
  let rest ← afterBlanks? (← "in".toList.isPrefixOf? (← afterBlanks? rest))
  let args ← "):".toList.isSuffixOf? (← "range(".toList.isPrefixOf? rest)
  return (var, args)

/-- The condition of `if …:`. -/
def branchHeader? (t : Text) : Option Text := do
  [':'].isSuffixOf? (← afterBlanks? (← "if".toList.isPrefixOf? t))

/-- The statement on a trimmed line that is neither empty nor a comment. -/
def ofContent (t : Text) : Except HeaderFault Statement :=
  match printed? t with
  | some expr => .ok (.print expr)
  | none =>
  match assigned? t with
  | some (target, value) => .ok (.assign target value)
  | none =>
  match loopHeader? t with
  | some (var, args) =>
    match Range.ofText? args with
    | some range => .ok (.loop var range)
    | none => .error .range
  | none =>
  match branchHeader? t with
  | some cond =>
    match Condition.ofText? cond with
    | some cond => .ok (.branch cond)
    | none => .error .condition
  | none => .ok (.unrecognized t)

/-- **The statement on a line**, or what is wrong with it. -/
def ofLine (line : Text) : Except HeaderFault Statement :=
  match trim line with
  | [] => .ok .skip
  | '#' :: _ => .ok .skip
  | t => ofContent t

end LessonScript.Statement
