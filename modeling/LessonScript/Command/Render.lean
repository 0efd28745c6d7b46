import LessonScript.Grade
import LessonScript.Listing
import LessonScript.Text.Json

/-! # How commands show their results -/

namespace LessonScript

/-! ### Reports -/

/-- A report as JSON; only an error has a kind. -/
def Report.json (r : Report) : JsonText :=
  JsonText.object <|
    [("output".toList, JsonText.list (r.output.map JsonText.text)),
      ("error".toList, match r.error with
        | some message => JsonText.text message
        | none => JsonText.null)] ++
    (match r.kind with
      | some kind => [("kind".toList, JsonText.text kind.name)]
      | none => [])

/-! ### Statements -/

def CompareOp.name : CompareOp → Text
  | ge => "Ge".toList
  | le => "Le".toList
  | eq => "Eq".toList
  | ne => "Ne".toList
  | gt => "Gt".toList
  | lt => "Lt".toList

def integerText (n : Int) : Text :=
  if n < 0 then '-' :: Nat.toDigits 10 n.natAbs else Nat.toDigits 10 n.natAbs

/-- A statement as JSON: an object with its kind as the only key, fields in alphabetical order. -/
def Statement.json : Statement → JsonText
  | skip => .text "Skip".toList
  | print expr => tagged "Print" [("expr".toList, .text expr)]
  | assign target value =>
    tagged "Assign" [("target".toList, .text target), ("value".toList, .text value)]
  | loop var range =>
    tagged "For" [
      ("range".toList, .object [
        ("end".toList, fun _ => integerText range.stop),
        ("start".toList, fun _ => integerText range.start)]),
      ("var".toList, .text var)]
  | branch cond =>
    tagged "If" [("cond".toList, .object [
      ("lhs".toList, .text cond.lhs),
      ("op".toList, .text cond.op.name),
      ("rhs".toList, .text cond.rhs)])]
  | unrecognized text => tagged "Unrecognized" [("text".toList, .text text)]
where
  /-- An object with one key, which holds an object. -/
  tagged (tag : String) (fields : List (Text × JsonText)) : JsonText :=
    .object [(tag.toList, .object fields)]

/-! ### Listings -/

namespace Listing

def spanJson (l : Listing) : JsonText :=
  .object [("indent".toList, .number l.line.indent), ("line".toList, .number l.line.number)]

/-- A line of a listing as JSON: what it says, or its problem. -/
def json (l : Listing) : JsonText :=
  match l.verdict with
  | .ok s => .object [("span".toList, l.spanJson), ("stmt".toList, s.json)]
  | .error e => .object [("error".toList, .text e.message), ("span".toList, l.spanJson)]

/-- A text filled up with spaces at its front. -/
def padStart (width : Nat) (t : Text) : Text := List.replicate (width - t.length) ' ' ++ t

/-- A text filled up with spaces at its end. -/
def padEnd (width : Nat) (t : Text) : Text := t ++ List.replicate (width - t.length) ' '

/-- A line of a listing as a row: its number, its indentation, what it is, its content, and its
problem. -/
def row (l : Listing) : Text :=
  padStart 4 (Nat.toDigits 10 l.line.number) ++ " [".toList ++
    padStart 2 (Nat.toDigits 10 l.line.indent) ++ "] ".toList ++ padEnd 12 l.label ++ [' '] ++
    l.line.content ++
    (match l.problem with
      | some e => "  <- ".toList ++ e.message
      | none => [])

end Listing

end LessonScript
