import Treewalk.Number.Binary

/-!
# Numbers in decimal

A decimal is an integer times a power of ten. `Decimal.toFloat` reads one; `shortest` finds, for a
positive finite number, a decimal with the fewest digits that reads back as it, and of those the
closest.
-/

namespace Treewalk.Number

/-- The value `coefficient * 10 ^ exponent`. -/
structure Decimal where
  coefficient : Nat
  exponent : Int
deriving DecidableEq, Repr

def Decimal.toFloat (d : Decimal) : Float :=
  nearest false (d.coefficient * 10 ^ d.exponent.toNat) (10 ^ (-d.exponent).toNat)

/-- The decimal digits of a natural number, most significant first. -/
def digits (n : Nat) : List Char :=
  Nat.toDigits 10 n

/-- The largest `k` with `10 ^ k ≤ numerator / denominator`, both positive. -/
def quotientLog10 (numerator denominator : Nat) : Int :=
  let estimate : Int := (digits numerator).length - (digits denominator).length
  if denominator * 10 ^ estimate.toNat ≤ numerator * 10 ^ (-estimate).toNat then estimate
  else estimate - 1

/-- Which of two equally close decimals is taken. -/
inductive Tie where
  | up
  | toEven
deriving DecidableEq, Repr

/-- Removes trailing zeros from a coefficient; `fuel` bounds how many. -/
def Decimal.strip (d : Decimal) : (fuel : Nat) → Decimal
  | 0 => d
  | fuel + 1 =>
    if d.coefficient ≠ 0 ∧ d.coefficient % 10 = 0 then
      Decimal.strip ⟨d.coefficient / 10, d.exponent + 1⟩ fuel
    else d

/-- Four times the distance, in steps of the last mantissa digit, from a number down to the
smallest real that rounds to it. Below a power of two the numbers lie twice as close. -/
def stepBelow (mantissa : Nat) (exponent : Int) : Nat :=
  if mantissa = 2 ^ 52 ∧ leastExponent < exponent then 1 else 2

/-- Whether `coefficient * 10 ^ power` reads back as `mantissa * 2 ^ exponent`: it lies between the
midpoints to both neighbours, or on one if the mantissa is even. -/
def readsBack (mantissa : Nat) (exponent : Int) (coefficient : Nat) (power : Int) : Bool :=
  let scale := 2 ^ exponent.toNat * 10 ^ (-power).toNat
  let low := (4 * mantissa - stepBelow mantissa exponent) * scale
  let high := (4 * mantissa + 2) * scale
  let point := 4 * (coefficient * 10 ^ power.toNat * 2 ^ (-exponent).toNat)
  if mantissa % 2 = 0 then low ≤ point && point ≤ high else low < point && point < high

/-- The decimal of step `10 ^ power` that reads back as `mantissa * 2 ^ exponent` and is closest to
it. Only the two neighbours of the value can be. -/
def onGrid (tie : Tie) (mantissa : Nat) (exponent power : Int) :
    Option Decimal :=
  let numerator := mantissa * 2 ^ exponent.toNat * 10 ^ (-power).toNat
  let denominator := 2 ^ (-exponent).toNat * 10 ^ power.toNat
  let below := numerator / denominator
  let above := below + 1
  let rest := numerator % denominator
  let upper : Bool := match tie with
    | .up => denominator ≤ 2 * rest
    | .toEven => denominator < 2 * rest || denominator == 2 * rest && below % 2 == 1
  match readsBack mantissa exponent below power, readsBack mantissa exponent above power with
  | true, true => some ⟨if upper then above else below, power⟩
  | true, false => some ⟨below, power⟩
  | false, true => some ⟨above, power⟩
  | false, false => none

/-- The decimal with the fewest digits that reads back as a positive `mantissa * 2 ^ exponent`.
Seventeen digits always do. -/
def shortest (tie : Tie) (mantissa : Nat) (exponent : Int) : Decimal :=
  let (numerator, denominator) := fraction mantissa exponent
  let leading := quotientLog10 numerator denominator
  match (List.range 17).findSome? fun (count : Nat) =>
      onGrid tie mantissa exponent (leading - count) with
  | some d => d.strip 17
  | none => ⟨0, 0⟩

end Treewalk.Number
