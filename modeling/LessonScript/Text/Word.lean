import LessonScript.Text.Blank

/-! # Words

A word is a non-empty run of ASCII letters, digits and underscores. Names of variables are words;
a word may begin with a digit. -/

namespace LessonScript

/-- A letter, a digit or an underscore, in ASCII. -/
def isWordChar (c : Char) : Bool := c.isAlphanum || c == '_'

/-- The longest word at the front of a text, with the text after it. -/
def Text.word? (t : Text) : Option (Text × Text) :=
  match t.takeWhile isWordChar with
  | [] => none
  | word => some (word, t.dropWhile isWordChar)

end LessonScript
