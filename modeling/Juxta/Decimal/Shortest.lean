import Juxta.Decimal.Basic

/-!
# The shortest decimal that reads back

Of all decimals that round to a given floating-point number, the one with the fewest digits is
written; of several with that many digits, the one nearest to the number.

The decimals that round to `m * 2 ^ q` are those between the midpoints to its two neighbours, the
midpoints themselves included exactly when `m` is even.  For each number of digits it is enough to
test the two decimals of that length on either side of the number, and 17 digits always suffice.

## What is here

* `Interval` — the decimals that round to a number, over a common denominator.
* `shortest` — the digits and the power of ten of the shortest of them.
-/

set_option autoImplicit false
namespace Juxta.Decimal

open Binary64 (power)

/-- The numbers that round to `centre / unit`: all three fields are numerators over `unit`. -/
structure Interval where
  low : Nat
  centre : Nat
  high : Nat
  unit : Nat
  /-- Whether the two ends round to the centre as well. -/
  closed : Bool
deriving DecidableEq, Repr

/-- The numbers that round to `m * 2 ^ q`.  Below a power of two the neighbour is only half as far
away, except among the smallest numbers, where the spacing is uniform. -/
def Interval.around (m : Nat) (q : Int) : Interval :=
  let scale := power 2 q
  let below := if m = Binary64.hiddenBit && q ≠ Binary64.leastExponent then 1 else 2
  { low := (4 * m - below) * scale
    centre := 4 * m * scale
    high := (4 * m + 2) * scale
    unit := 4 * power 2 (-q)
    closed := m % 2 = 0 }

/-- Whether `num / den` lies in the interval. -/
def Interval.contains (i : Interval) (num den : Nat) : Bool :=
  let x := num * i.unit
  if i.closed then i.low * den ≤ x && x ≤ i.high * den
  else i.low * den < x && x < i.high * den

/-- The estimate `e`, or one more or less, so that `10 ^ e ≤ num / den < 10 ^ (e + 1)`. -/
def adjustExponent (num den : Nat) (e : Int) : Int :=
  if num * power 10 (-e) < den * power 10 e then e - 1
  else if den * power 10 (e + 1) ≤ num * power 10 (-(e + 1)) then e + 1
  else e

/-- The integer `e` with `10 ^ e ≤ num / den < 10 ^ (e + 1)`, for positive `num` and `den`.  The
number of binary digits gives it up to one. -/
def decimalExponent (num den : Nat) : Int :=
  adjustExponent num den (Int.fdiv (Binary64.binaryExponent num den * 30103) 100000)

/-- The better of the two multiples of `10 ^ e` on either side of the centre, as a number of units
`10 ^ e`, if one of them is in the interval.  Of two the nearer is taken, and of two equally near
the even one. -/
def Interval.onGrid (i : Interval) (e : Int) : Option Nat :=
  let up := power 10 e
  let down := power 10 (-e)
  let floor := i.centre * down / (i.unit * up)
  let low := i.contains (floor * up) down
  let high := i.contains ((floor + 1) * up) down
  match low, high with
  | false, false => none
  | true, false => some floor
  | false, true => some (floor + 1)
  | true, true => some (Binary64.roundToEven (i.centre * down) (i.unit * up))

/-- Tries ever finer grids, from the one on which the number has a single digit. -/
def Interval.search (i : Interval) : (tries : Nat) → (e : Int) → Nat × Int
  | 0, e =>
    (Binary64.roundToEven (i.centre * power 10 (-e)) (i.unit * power 10 e), e)
  | tries + 1, e =>
    match i.onGrid e with
    | some n => (n, e)
    | none => i.search tries (e - 1)

/-- The **shortest decimal that rounds to `m * 2 ^ q`**, for a positive `m`.  Its first and last
digits are not zero. -/
def shortest (negative : Bool) (m : Nat) (q : Int) : Decimal :=
  let i := Interval.around m q
  let (n, e) := i.search 16 (decimalExponent i.centre i.unit)
  let (digits, exponent) := trimZeros (digitsOf n) e
  { negative, digits, exponent }

end Juxta.Decimal
