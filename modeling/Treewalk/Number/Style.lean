import Treewalk.Number.Decimal

/-!
# How numbers are written

A style says which whole numbers are written out exactly, and how all other numbers are laid out
from their shortest digits. Each output of the project that shows numbers has one style.
-/

namespace Treewalk.Number

/-- The decisions of one way to write numbers. -/
structure Style where
  /-- The whole magnitudes that are written digit by digit. -/
  exact : Nat → Bool
  /-- Stands behind a whole number that is written digit by digit. -/
  exactSuffix : String
  /-- The decimal exponents of numbers that are written without an exponent. -/
  plain : Int → Bool
  /-- Stands behind a number written without exponent from its shortest digits that has no
  fraction. -/
  plainSuffix : String
  tie : Tie
  infinity : String

def zeros (n : Nat) : List Char :=
  List.replicate n '0'

/-- A decimal without exponent; at least one digit stands before the point. -/
def Decimal.positional (d : Decimal) (suffix : String) : List Char :=
  let ds := digits d.coefficient
  if 0 ≤ d.exponent then ds ++ zeros d.exponent.toNat ++ suffix.toList
  else
    let places := (-d.exponent).toNat
    let padded := zeros (places + 1 - ds.length) ++ ds
    padded.take (padded.length - places) ++ '.' :: padded.drop (padded.length - places)

/-- A decimal with one digit before the point and a signed exponent. -/
def Decimal.scientific (d : Decimal) : List Char :=
  let ds := digits d.coefficient
  let exponent := d.exponent + ds.length - 1
  let fraction := if ds.length ≤ 1 then [] else '.' :: ds.drop 1
  ds.take 1 ++ fraction ++ 'e' :: (if exponent < 0 then '-' else '+') :: digits exponent.natAbs

/-- A positive finite number from its shortest digits. -/
def Style.layOut (style : Style) (mantissa : Nat) (exponent : Int) : List Char :=
  let d := shortest style.tie mantissa exponent
  if style.plain (d.exponent + (digits d.coefficient).length - 1) then
    d.positional style.plainSuffix
  else d.scientific

def Style.write (style : Style) (x : Float) : String :=
  let sign := if isNegative x then "-" else ""
  match Binary.ofFloat x with
  | .nan => "NaN"
  | .infinite _ => sign ++ style.infinity
  | .finite _ mantissa exponent =>
    match (whole? x).filter style.exact with
    | some magnitude => sign ++ String.ofList (digits magnitude) ++ style.exactSuffix
    | none =>
      if mantissa = 0 then sign ++ "0" ++ style.plainSuffix
      else sign ++ String.ofList (style.layOut mantissa exponent)

/-- Numbers as a program shows them: whole numbers exactly, others by their shortest digits and
never with an exponent. -/
def Style.shown : Style where
  exact := fun _ => true
  exactSuffix := ""
  plain := fun _ => true
  plainSuffix := ""
  tie := .up
  infinity := "Infinity"

/-- Numbers in a token listing: whole numbers that fit a word of 64 bits exactly and with a
fraction of zero, others by their shortest digits. -/
def Style.listed : Style where
  exact := fun magnitude => magnitude < 2 ^ 63
  exactSuffix := ".0"
  plain := fun _ => true
  plainSuffix := ""
  tie := .up
  infinity := "inf"

/-- Numbers in the text of a tree: whole numbers exactly and with a fraction of zero. -/
def Style.outlined : Style where
  exact := fun _ => true
  exactSuffix := ".0"
  plain := fun _ => true
  plainSuffix := ""
  tie := .up
  infinity := "inf"

/-- Numbers in JSON: shortest digits, plain with a fraction for exponents from -5 to 15. What is
not finite has no number in JSON. -/
def Style.json : Style where
  exact := fun _ => false
  exactSuffix := ""
  plain := fun exponent => -5 ≤ exponent && exponent ≤ 15
  plainSuffix := ".0"
  tie := .toEven
  infinity := "null"

end Treewalk.Number
