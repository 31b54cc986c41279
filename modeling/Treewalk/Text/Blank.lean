import Treewalk.Text.Ranges

/-!
# Blank text

The characters with the Unicode property `White_Space`, and texts of such characters only.
-/

namespace Treewalk.Text

/-- The property `White_Space`. -/
def blankRanges : Ranges :=
  [(0x9, 0xD), (0x20, 0x20), (0x85, 0x85), (0xA0, 0xA0), (0x1680, 0x1680), (0x2000, 0x200A),
    (0x2028, 0x2029), (0x202F, 0x202F), (0x205F, 0x205F), (0x3000, 0x3000)]

def isBlankChar (c : Char) : Bool :=
  blankRanges.contains c

/-- A text without any character that shows. -/
def isBlank (text : String) : Bool :=
  text.toList.all isBlankChar

example : blankRanges.areApart ∧ blankRanges.size = 25 := by decide

end Treewalk.Text
