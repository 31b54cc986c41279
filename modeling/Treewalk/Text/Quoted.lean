import Treewalk.Text.DefaultIgnorable
import Treewalk.Text.GraphemeExtend
import Treewalk.Text.Unprintable

/-!
# Quoted text

Text between quotes on one line, in which every character can be told from every other: the
quote, the backslash and the common controls are written with a backslash, and a character that
would not show, or that would change the look of the one before it, is written as its code point.
The single quote ends nothing here and stands for itself.
-/

namespace Treewalk.Text.Quoted

/-- What stands behind the backslash for a character that has a short form. -/
def letter? : Char → Option Char
  | '"' => some '"'
  | '\\' => some '\\'
  | '\n' => some 'n'
  | '\r' => some 'r'
  | '\t' => some 't'
  | '\x00' => some '0'
  | _ => none

/-- A character as its code point in hexadecimal digits. -/
def codePoint (c : Char) : List Char :=
  ['\\', 'u', '\x7b'] ++ Nat.toDigits 16 c.toNat ++ ['\x7d']

/-- A character that a reader would not see as it stands, or not as a character of its own. -/
def isHidden (c : Char) : Bool :=
  isExtendingMark c || isUnprintable c || isIgnorable c

def escape (c : Char) : List Char :=
  match letter? c with
  | some letter => ['\\', letter]
  | none => if isHidden c then codePoint c else [c]

def quote (text : String) : String :=
  "\"" ++ String.ofList (text.toList.flatMap escape) ++ "\""

example : quote "a\u00a0b\t\"\u00e9\"e\u0301" =
    "\"a\\u\x7ba0\x7db\\t\\\"\u00e9\\\"e\\u\x7b301\x7d\"" := by
  decide +kernel

example : quote "it\x27s" = "\"it\x27s\"" := by decide +kernel

/-- Fillers are letters that do not show. -/
example : [0x115F, 0x1160, 0x3164, 0xFFA0].all (fun n => isHidden (Char.ofNat n)) := by
  decide +kernel

/-- A halfwidth sound mark is a letter that shows. -/
example : [0xFF9E, 0xFF9F].all (fun n => !isHidden (Char.ofNat n)) := by decide +kernel

end Treewalk.Text.Quoted
