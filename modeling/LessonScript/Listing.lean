import LessonScript.Line
import LessonScript.Run.Error

/-! # Listings

A listing shows every line of a program, read without running anything, with the error that a run
would end with if it got there. An `else:` is in place if the nearest line before it that is
neither blank nor deeper is the header of a branch at its own indentation. -/

namespace LessonScript

def Line.isBranch (l : Line) : Bool :=
  match l.statement with
  | .ok (.branch _) => true
  | _ => false

/-- The line opens the other half of a branch. `before` holds the lines before it, the last one
first. -/
def Line.closesBranch (before : List Line) (l : Line) : Bool :=
  l.isElse &&
    (before.find? fun p => !p.isBlank && p.indent ≤ l.indent).any fun p =>
      p.indent == l.indent && p.isBranch

/-- The error that running the line would end with. `before` holds the lines before it, the last
one first. -/
def Line.problem? (before : List Line) (l : Line) : Option RunError :=
  match l.statement with
  | .error fault => some (.header fault)
  | .ok (.unrecognized text) =>
    if l.closesBranch before then none else some (.unsupported text)
  | .ok _ => none

/-- A line of a listing. -/
structure Listing where
  line : Line
  /-- The error that running it would end with. -/
  problem : Option RunError

namespace Listing

/-- **The listing of a program.** -/
def ofLines (lines : List Line) : List Listing :=
  (lines.foldl (fun (before, listed) l => (l :: before, ⟨l, l.problem? before⟩ :: listed))
    (([], []) : List Line × List Listing)).2.reverse

/-- The statement on the line if it has no problem, and its problem otherwise. -/
def verdict (l : Listing) : Except RunError Statement :=
  match l.problem, l.line.statement with
  | some e, _ => .error e
  | none, .error fault => .error (.header fault)
  | none, .ok s => .ok s

/-- The name of what the line is; a line of no known shape without a problem is an `else:`. -/
def label (l : Listing) : Text :=
  match l.verdict with
  | .error _ => "error".toList
  | .ok (.unrecognized _) => "else".toList
  | .ok s => s.kind.name

end Listing

end LessonScript
