/-!
# Binary floating-point numbers as exact integers

A finite 64-bit floating-point number is `m * 2 ^ q` for a natural number `m` and an integer `q`.
This module goes from the bits to `m` and `q` and back.  The way back rounds a ratio of natural
numbers to the nearest representable value, so that reading a decimal text and taking remainders
are exact integer computations with one rounding at the end.

## What is here

* `Binary64.decode` — the class, sign, significand and exponent behind 64 bits.
* `Binary64.ofRatio` — the number nearest to a ratio, a tie going to the even significand.
* `Binary64.remainder` — the remainder of a division that truncates.
* `Binary64.whole?` — the integer that a number is equal to.
-/

set_option autoImplicit false
namespace Juxta

/-- What 64 bits stand for. -/
inductive Binary64 where
  | nan
  | infinite (negative : Bool)
  /-- The number `significand * 2 ^ exponent`, with its sign.  Zero has a sign as well. -/
  | finite (negative : Bool) (significand : Nat) (exponent : Int)
deriving DecidableEq, Repr

namespace Binary64

/-- Significands of normal numbers lie in `[2 ^ 52, 2 ^ 53)`. -/
def hiddenBit : Nat := Nat.pow 2 52

/-- The exponent of the subnormal numbers and of the smallest normal ones. -/
def leastExponent : Int := -1074

/-- The bits of infinity, sign aside; the bits of finite numbers lie below. -/
def infinityBits : Nat := 2047 * hiddenBit

/-- The bit that holds the sign. -/
def signBit : Nat := Nat.pow 2 63

/-- Reads the three fields of a 64-bit pattern: a sign bit, eleven bits of exponent and 52 bits of
fraction. -/
def decode (bits : Nat) : Binary64 :=
  let negative : Bool := bits / signBit % 2 = 1
  let biased : Nat := bits / hiddenBit % 2048
  let fraction : Nat := bits % hiddenBit
  if biased = 2047 then
    if fraction = 0 then infinite negative else nan
  else if biased = 0 then
    finite negative fraction leastExponent
  else
    finite negative (hiddenBit + fraction) ((biased : Int) - 1075)

/-- The number behind a floating-point value. -/
def ofFloat (x : Float) : Binary64 :=
  decode x.toBits.toNat

/-- The floating-point value with the given magnitude bits and sign. -/
def assemble (negative : Bool) (magnitude : Nat) : Float :=
  Float.ofBits (UInt64.ofNat ((if negative then signBit else 0) + magnitude))

/-- The power `base ^ e`, or one if `e` is negative.  A ratio is scaled by `base ^ e` in either case
when its numerator is multiplied by `power base e` and its denominator by `power base (-e)`. -/
def power (base : Nat) (e : Int) : Nat :=
  Nat.pow base e.toNat

/-- The ratio `num / den` rounded to an integer, a tie going to the even neighbour. -/
def roundToEven (num den : Nat) : Nat :=
  let floor := num / den
  let twice := 2 * (num % den)
  if twice < den then floor
  else if den < twice then floor + 1
  else if floor % 2 = 0 then floor else floor + 1

/-- The integer `e` with `2 ^ e ≤ num / den < 2 ^ (e + 1)`, for positive `num` and `den`. -/
def binaryExponent (num den : Nat) : Int :=
  let guess : Int := (num.log2 : Int) - den.log2
  if num * power 2 (-guess) < den * power 2 guess then guess - 1 else guess

/-- The magnitude bits of the number nearest to `num / den`.  The significand has 53 bits, or fewer
below the smallest normal number; rounding up to the next power of two carries into the exponent
field, and what passes the largest finite number is infinite. -/
def ratioBits (num den : Nat) : Nat :=
  if num = 0 then 0
  else
    let exponent := max leastExponent (binaryExponent num den - 52)
    let significand := roundToEven (num * power 2 (-exponent)) (den * power 2 exponent)
    let bits :=
      if significand < hiddenBit then significand
      else (exponent - leastExponent + 1).toNat * hiddenBit + (significand - hiddenBit)
    min bits infinityBits

/-- The floating-point number nearest to `num / den`, a tie going to the even significand. -/
def ofRatio (negative : Bool) (num den : Nat) : Float :=
  assemble negative (ratioBits num den)

/-- The floating-point number `significand * 2 ^ exponent`, rounded if need be. -/
def ofScaled (negative : Bool) (significand : Nat) (exponent : Int) : Float :=
  ofRatio negative (significand * power 2 exponent) (power 2 (-exponent))

/-- Not a number. -/
def notANumber : Float := Float.ofBits 0x7FF8000000000000

/-- The remainder of the division that truncates: it has the sign of the dividend and a magnitude
below that of the divisor.  Both numbers are brought to one exponent, and there the remainder is
one of natural numbers, so that no rounding takes place.  It is not a number when the divisor is
zero or the dividend infinite. -/
def remainder (x y : Float) : Float :=
  match ofFloat x, ofFloat y with
  | finite _ _ _, infinite _ => x
  | finite negative m p, finite _ n q =>
    if n = 0 then notANumber
    else
      let shared := min p q
      let dividend := m * power 2 (p - shared)
      let divisor := n * power 2 (q - shared)
      ofScaled negative (dividend % divisor) shared
  | _, _ => notANumber

/-- The integer with the given sign and magnitude. -/
def signed (negative : Bool) (n : Nat) : Int :=
  if negative then -n else n

/-- The integer that a number is equal to, if it is integral.  Either zero is equal to zero. -/
def whole? : Binary64 → Option Int
  | finite negative m q =>
    let num := m * power 2 q
    let den := power 2 (-q)
    if num % den = 0 then some (signed negative (num / den)) else none
  | _ => none

end Binary64
end Juxta
