import LessonScript.Text.Blank

/-! # Answers

What a command leaves behind: an exit code and what it wrote. -/

namespace LessonScript

/-- The answer of a command. -/
structure Answer where
  exit : Nat
  stdout : Text
  stderr : Text
deriving DecidableEq, Repr

/-- Texts as lines, with a line feed after each. -/
def unlines (ts : List Text) : Text := ts.flatMap fun t => t ++ ['\n']

namespace Answer

/-- The exit code of a success or a failure. -/
def exitCode (ok : Bool) : Nat := if ok then 0 else 1

/-- The answer of a command that writes an error only. -/
def failure (message : Text) : Answer := ⟨1, [], unlines ["Error: ".toList ++ message]⟩

/-- The answer to a command line that makes no sense. -/
def misuse (usage : Text) : Answer := ⟨2, [], usage⟩

end Answer

end LessonScript
