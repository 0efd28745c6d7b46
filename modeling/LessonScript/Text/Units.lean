import LessonScript.Text.Blank

/-! # The order of texts by their 16-bit units

A character below U+10000 is one 16-bit unit, any other character a pair of surrogates. Comparing
texts unit by unit puts the characters from U+10000 on before those from U+E000 to U+FFFF. -/

namespace LessonScript.Text

/-- The 16-bit units of a character. -/
def charUnits (c : Char) : List Nat :=
  if c.toNat < 0x10000 then [c.toNat]
  else [0xD800 + (c.toNat - 0x10000) / 0x400, 0xDC00 + (c.toNat - 0x10000) % 0x400]

def units (t : Text) : List Nat := t.flatMap charUnits

/-- The lexicographic order of texts by their units. -/
def compareUnits (s t : Text) : Ordering := compare (units s) (units t)

end LessonScript.Text
