/-!
# Numbers in binary

A number is a sign, a mantissa and a power of two, or one of the values that are no real number.
Everything that has to be exact about numbers (truncation, remainders, which values are whole) is
decided on this form, in integers; `nearest` goes back, rounding a quotient to the closest number
and a tie to the even mantissa.
-/

namespace Treewalk.Number

/-- Powers are those of natural numbers, whatever other powers are known. -/
@[default_instance high] scoped instance (priority := high) natPow : Pow Nat Nat :=
  instPowNat

/-- The contents of a number; the value of a finite one is `mantissa * 2 ^ exponent` with its
sign. -/
inductive Binary where
  | nan
  | infinite (negative : Bool)
  | finite (negative : Bool) (mantissa : Nat) (exponent : Int)
deriving DecidableEq, Repr

/-- The exponent of the smallest step between two numbers. -/
def leastExponent : Int :=
  -1074

def Binary.ofFloat (x : Float) : Binary :=
  let bits := x.toBits.toNat
  let negative := bits / 2 ^ 63 = 1
  let field : Nat := bits / 2 ^ 52 % 2 ^ 11
  let fraction := bits % 2 ^ 52
  if field = 2047 then
    if fraction = 0 then .infinite negative else .nan
  else if field = 0 then .finite negative fraction leastExponent
  else .finite negative (2 ^ 52 + fraction) (field - 1075)

/-- `mantissa * 2 ^ exponent` as numerator and denominator. -/
def fraction (mantissa : Nat) (exponent : Int) : Nat × Nat :=
  (mantissa * 2 ^ exponent.toNat, 2 ^ (-exponent).toNat)

/-- A quotient rounded to an integer, a tie to the even one. -/
def roundDiv (numerator denominator : Nat) : Nat :=
  let quotient := numerator / denominator
  let rest := numerator % denominator
  if 2 * rest < denominator then quotient
  else if denominator < 2 * rest then quotient + 1
  else quotient + quotient % 2

/-- The largest `k` with `2 ^ k ≤ numerator / denominator`, both positive. -/
def quotientLog2 (numerator denominator : Nat) : Int :=
  let estimate : Int := numerator.log2 - denominator.log2
  if denominator * 2 ^ estimate.toNat ≤ numerator * 2 ^ (-estimate).toNat then estimate
  else estimate - 1

/-- The bit pattern of the number closest to a quotient, without its sign. A mantissa that rounds
up to the next power of two carries into the exponent field, and a value beyond the largest finite
number is infinite. -/
def nearestBits (numerator denominator : Nat) : Nat :=
  if numerator = 0 then 0
  else
    let exponent := max leastExponent (quotientLog2 numerator denominator - 52)
    let mantissa :=
      roundDiv (numerator * 2 ^ (-exponent).toNat) (denominator * 2 ^ exponent.toNat)
    min (2047 * 2 ^ 52) ((exponent - leastExponent).toNat * 2 ^ 52 + mantissa)

/-- The number closest to `numerator / denominator`, with a sign. -/
def nearest (negative : Bool) (numerator denominator : Nat) : Float :=
  let bits := nearestBits numerator denominator
  .ofBits (.ofNat (if negative then 2 ^ 63 + bits else bits))

/-- The integer part of `mantissa * 2 ^ exponent`, with a sign. -/
def truncate (negative : Bool) (mantissa : Nat) (exponent : Int) : Int :=
  let (numerator, denominator) := fraction mantissa exponent
  let whole : Int := (numerator / denominator : Nat)
  if negative then -whole else whole

/-- The integer part of a number, kept between `low` and `high`; zero for what is no number. -/
def saturate (low high : Int) (x : Float) : Int :=
  match Binary.ofFloat x with
  | .nan => 0
  | .infinite negative => if negative then low else high
  | .finite negative mantissa exponent => max low (min high (truncate negative mantissa exponent))

/-- The magnitude of a finite number without fraction. -/
def whole? (x : Float) : Option Nat :=
  match Binary.ofFloat x with
  | .finite _ mantissa exponent =>
    let (numerator, denominator) := fraction mantissa exponent
    if numerator % denominator = 0 then some (numerator / denominator) else none
  | _ => none

/-- Set in negative numbers and in negative zero. -/
def isNegative (x : Float) : Bool :=
  match Binary.ofFloat x with
  | .nan => false
  | .infinite negative => negative
  | .finite negative _ _ => negative

def nan : Float :=
  .ofBits 0x7FF8000000000000

/-- What is left of `x` after taking `y` away a whole number of times, with the sign of `x`. It is
exact: both are multiples of the finer of their two powers of two. -/
def remainder (x y : Float) : Float :=
  match Binary.ofFloat x, Binary.ofFloat y with
  | .finite negative mantissa exponent, .finite _ mantissa' exponent' =>
    if mantissa' = 0 then nan
    else
      let common := min exponent exponent'
      let rest := mantissa * 2 ^ (exponent - common).toNat %
        (mantissa' * 2 ^ (exponent' - common).toNat)
      let (numerator, denominator) := fraction rest common
      nearest negative numerator denominator
  | .finite .., .infinite _ => x
  | _, _ => nan

/-- The bits of the integer part of a number, as a word of 32 bits. -/
def word (x : Float) : Int32 :=
  .ofInt (saturate (-2147483648) 2147483647 x)

def ofWord (w : Int32) : Float :=
  nearest (w.toInt < 0) w.toInt.natAbs 1

def ofCount (n : Nat) : Float :=
  nearest false n 1

end Treewalk.Number
