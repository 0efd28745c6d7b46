import LessonScript.Text.Blank

/-! # JSON texts

A JSON value is written over several lines, each item of a list and each field of an object on a
line of its own, two spaces deeper than what holds it. A value is therefore a function from the
depth at which it stands to its text. -/

namespace LessonScript

/-- A JSON value, as its text at a depth. -/
abbrev JsonText := Nat → Text

namespace JsonText

/-- A line feed and the spaces of a line at a depth. -/
def newLine (depth : Nat) : Text := '\n' :: List.replicate (2 * depth) ' '

/-- A character of a string: quotes, backslashes and control characters are escaped, and nothing
else. -/
def escape (c : Char) : Text :=
  if c = '"' then ['\\', '"']
  else if c = '\\' then ['\\', '\\']
  else if c = '\n' then ['\\', 'n']
  else if c = '\r' then ['\\', 'r']
  else if c = '\t' then ['\\', 't']
  else if c.toNat = 0x08 then ['\\', 'b']
  else if c.toNat = 0x0C then ['\\', 'f']
  else if c.toNat < 0x20 then
    ['\\', 'u', '0', '0', Nat.digitChar (c.toNat / 16), Nat.digitChar (c.toNat % 16)]
  else [c]

def quoted (t : Text) : Text := '"' :: t.flatMap escape ++ ['"']

def null : JsonText := fun _ => "null".toList

def number (n : Nat) : JsonText := fun _ => Nat.toDigits 10 n

def text (t : Text) : JsonText := fun _ => quoted t

/-- Items between brackets, on a line each; brackets only if there are none. -/
def bracketed (left right : Char) (items : List JsonText) : JsonText := fun depth =>
  if items.isEmpty then [left, right]
  else
    left :: [','].intercalate (items.map fun item => newLine (depth + 1) ++ item (depth + 1)) ++
      newLine depth ++ [right]

def list (items : List JsonText) : JsonText := bracketed '[' ']' items

/-- An object, with its fields in the given order. -/
def object (fields : List (Text × JsonText)) : JsonText :=
  bracketed '\x7b' '\x7d' (fields.map fun (key, value) =>
    fun depth => quoted key ++ ':' :: ' ' :: value depth)

end JsonText

end LessonScript
