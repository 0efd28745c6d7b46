import LessonScript.Statement.Reading

/-! # Lines and blocks

A program is a list of lines. The indentation of a line is the number of its leading blanks,
whatever they are. The *block* of a header is the run of lines after it that are blank or deeper
than the header. -/

namespace LessonScript

/-- A line of a program. -/
structure Line where
  /-- Its number, the first line having number one. -/
  number : Nat
  text : Text
deriving DecidableEq, Repr

namespace Line

/-- The lines of a source: its pieces between line feeds. -/
def ofSource (source : Text) : List Line :=
  (source.splitOn '\n').zipIdx.map fun (text, i) => ⟨i + 1, text⟩

def content (l : Line) : Text := l.text.trim

/-- The line holds blanks only. -/
def isBlank (l : Line) : Bool := l.text.all LessonScript.isBlank

def indent (l : Line) : Nat := (l.text.takeWhile LessonScript.isBlank).length

def statement (l : Line) : Except HeaderFault Statement := Statement.ofLine l.text

/-- The content of the line that opens the other half of a branch. -/
def elseMark : Text := "else:".toList

/-- The line opens the other half of a branch. -/
def isElse (l : Line) : Bool := l.content == elseMark

/-- The line belongs to the block of a header at the given indentation. -/
def isInside (parent : Nat) (l : Line) : Bool := l.isBlank || parent < l.indent

end Line

/-- The lines of the block that begins at a place, and the place after it. -/
def blockAt (lines : List Line) (start parent : Nat) : List Line × Nat :=
  let start := min start lines.length
  let body := (lines.drop start).takeWhile (Line.isInside parent)
  (body, start + body.length)

end LessonScript
