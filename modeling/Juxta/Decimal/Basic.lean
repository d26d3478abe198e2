import Juxta.Decimal.Binary64

/-!
# Decimal numbers

The decimal side of numbers: digits, and where the first of them stands.

## What is here

* `Decimal` — a signed decimal number, as digits and a power of ten.
* `Decimal.ofInteger` — the decimal number of an integer, to at most 28 digits.
-/

set_option autoImplicit false
namespace Juxta

/-- The decimal number `d₁d₂…dₙ * 10 ^ exponent`, with its sign.  Digits are numbers below ten, the
most significant first. -/
structure Decimal where
  negative : Bool
  digits : List Nat
  exponent : Int
deriving DecidableEq, Repr

namespace Decimal

/-- The decimal digits of a natural number, the most significant first. -/
def digitsOf (n : Nat) : List Nat :=
  (Nat.toDigits 10 n).map fun c => c.toNat - '0'.toNat

/-- The power of ten of the first digit: the number lies in `[10 ^ e, 10 ^ (e + 1))` when its first
digit is not zero. -/
def scientificExponent (d : Decimal) : Int :=
  d.digits.length - 1 + d.exponent

/-- The digits without the zeros at the end, each of which raises the exponent by one. -/
def trimZeros (digits : List Nat) (exponent : Int) : List Nat × Int :=
  let zeros := (digits.reverse.takeWhile (· = 0)).length
  (digits.take (digits.length - zeros), exponent + zeros)

/-- The number of digits to which integers are kept. -/
def precision : Nat := 28

/-- The decimal number of an integer that is not zero.  One that has more digits than are kept is
rounded to them, a tie going to the even neighbour. -/
def ofInteger (n : Int) : Decimal :=
  let dropped := (digitsOf n.natAbs).length - precision
  let kept := Binary64.roundToEven n.natAbs (Nat.pow 10 dropped)
  let (digits, exponent) := trimZeros (digitsOf kept) dropped
  { negative := n < 0, digits, exponent }

end Decimal
end Juxta
