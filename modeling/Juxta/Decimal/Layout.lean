import Juxta.Decimal.Shortest

/-!
# Writing numbers

The text of a decimal number, in positional or in scientific notation, and the two formats in which
this library writes floating-point numbers.

A `Layout` holds the decisions of a format: up to which exponent the notation is positional,
whether an integral number keeps a `.0`, and how infinities, zeros and not-a-number are spelt.

## What is here

* `Decimal.positional`, `Decimal.scientific` — the two notations.
* `Layout.write` — the text of a floating-point number in a format.
* `formatFloat` — the format of the language; `inspectFloat` — the format for inspecting trees.
-/

set_option autoImplicit false
namespace Juxta

namespace Decimal

/-- The characters of a run of digits. -/
def digitText (digits : List Nat) : List Char :=
  digits.map Nat.digitChar

/-- The minus sign of a negative number. -/
def sign (negative : Bool) : List Char :=
  if negative then ['-'] else []

/-- Positional notation: zeros fill the places between the digits and the point on either side, and
there is a point only if digits follow it. -/
def positional (d : Decimal) : List Char :=
  let count := d.digits.length
  let body :=
    if 0 ≤ d.exponent then
      digitText d.digits ++ List.replicate d.exponent.toNat '0'
    else
      let places := (-d.exponent).toNat
      if places < count then
        digitText (d.digits.take (count - places)) ++
          '.' :: digitText (d.digits.drop (count - places))
      else
        '0' :: '.' :: List.replicate (places - count) '0' ++ digitText d.digits
  sign d.negative ++ body

/-- At least two digits of a natural number. -/
def twoDigits (n : Nat) : List Char :=
  if n < 10 then '0' :: Nat.toDigits 10 n else Nat.toDigits 10 n

/-- Scientific notation: one digit, the others after a point, and an exponent that has a sign and at
least two digits. -/
def scientific (d : Decimal) : List Char :=
  let mantissa :=
    match d.digits with
    | [] => []
    | [first] => digitText [first]
    | first :: others => digitText [first] ++ '.' :: digitText others
  let e := d.scientificExponent
  sign d.negative ++ mantissa ++ 'e' :: (if e < 0 then '-' else '+') :: twoDigits e.natAbs

end Decimal

/-- The decisions of a number format. -/
structure Layout where
  nan : String
  positiveInfinity : String
  negativeInfinity : String
  /-- The first scientific exponent that is no longer written in positional notation. -/
  positionalBelow : Int
  /-- Whether positional notation ends in `.0` where no digit follows the point. -/
  keepsPoint : Bool

namespace Layout

/-- Exponents from here up to `positionalBelow` are written in positional notation. -/
def positionalFrom : Int := -4

/-- Whether the format writes the number in positional notation. -/
def isPositional (format : Layout) (d : Decimal) : Bool :=
  positionalFrom ≤ d.scientificExponent && d.scientificExponent < format.positionalBelow

/-- The text of a decimal number that is not zero. -/
def writeDecimal (format : Layout) (d : Decimal) : List Char :=
  if format.isPositional d then
    d.positional ++ (if format.keepsPoint && 0 ≤ d.exponent then ['.', '0'] else [])
  else
    d.scientific

/-- The text of a number. -/
def writeNumber (format : Layout) : Binary64 → String
  | .nan => format.nan
  | .infinite negative => if negative then format.negativeInfinity else format.positiveInfinity
  | .finite negative m q =>
    if m = 0 then
      String.ofList (format.writeDecimal ⟨negative, [0], 0⟩)
    else
      String.ofList (format.writeDecimal (Decimal.shortest negative m q))

/-- The text of an integer where a floating-point number is written. -/
def writeInteger (format : Layout) (n : Int) : String :=
  String.ofList (format.writeDecimal (if n = 0 then ⟨false, [0], 0⟩ else Decimal.ofInteger n))

/-- The text of a floating-point number. -/
def write (format : Layout) (x : Float) : String :=
  format.writeNumber (Binary64.ofFloat x)

/-- The format of the language: a whole number has no point, and numbers below `10 ^ 21` are written
out. -/
def language : Layout where
  nan := "NaN"
  positiveInfinity := "+Inf"
  negativeInfinity := "-Inf"
  positionalBelow := 21
  keepsPoint := false

/-- The format for inspecting trees: a point or an exponent tells a floating-point number from an
integer. -/
def inspection : Layout where
  nan := "nan"
  positiveInfinity := "inf"
  negativeInfinity := "-inf"
  positionalBelow := 16
  keepsPoint := true

end Layout

/-- The text of a floating-point number in the language. -/
def formatFloat (x : Float) : String :=
  Layout.language.write x

/-- The text of an integer in the place of a floating-point number of the language. -/
def formatInteger (n : Int) : String :=
  Layout.language.writeInteger n

/-- The text of a floating-point number where a tree is inspected. -/
def inspectFloat (x : Float) : String :=
  Layout.inspection.write x

end Juxta
