import Juxta.Decimal.Basic
import Juxta.Text.Blank
import Juxta.Text.Digit

/-!
# Reading numerals

The lexer makes only plain numerals: digits, and digits with a point between them.  A token made by
hand may spell a number in other ways: with a sign, with blanks around it, with underscores between
its digits, with an exponent, or as an infinity.  This module reads them all.

## What is here

* `Decimal.readInteger?` — the integer that a text spells.
* `Decimal.readFloat?` — the floating-point number nearest to what a text spells.
-/

set_option autoImplicit false
namespace Juxta.Decimal

/-- The digits of a run in which an underscore may stand between two digits. -/
def digitRun? : List Char → Option (List Nat)
  | [] => none
  | [c] => (Text.digit? c).map ([·])
  | c :: '_' :: rest => do return (← Text.digit? c) :: (← digitRun? rest)
  | c :: rest => do return (← Text.digit? c) :: (← digitRun? rest)

/-- The natural number that digits denote. -/
def ofDigits (digits : List Nat) : Nat :=
  digits.foldl (fun n d => 10 * n + d) 0

/-- Whether a text starts with a minus sign, and what follows its sign, if it has one. -/
def splitSign : List Char → Bool × List Char
  | '-' :: rest => (true, rest)
  | '+' :: rest => (false, rest)
  | cs => (false, cs)

/-- The integer that digits after a sign denote. -/
def signedRun? (cs : List Char) : Option Int :=
  let (negative, digits) := splitSign cs
  (digitRun? digits).map fun ds => Binary64.signed negative (ofDigits ds)

/-- The integer that a text spells. -/
def readInteger? (text : String) : Option Int :=
  signedRun? (Text.strip text).toList

/-- The digits of a part of a numeral that may be empty. -/
def optionalRun? (cs : List Char) : Option (List Nat) :=
  if cs.isEmpty then some [] else digitRun? cs

/-- The floating-point number nearest to `ofDigits digits * 10 ^ exponent`.  Beyond the bounds on
the exponent the number is infinite or zero in any case. -/
def nearest (negative : Bool) (digits : List Nat) (exponent : Int) : Float :=
  let e := max (-((digits.length : Int) + 400)) (min exponent 400)
  Binary64.ofRatio negative (ofDigits digits * Binary64.power 10 e) (Binary64.power 10 (-e))

/-- The number that digits with a point and an exponent spell, all of which are optional but for one
digit before the exponent. -/
def readDecimal? (negative : Bool) (cs : List Char) : Option Float := do
  let mantissa := cs.takeWhile fun c => c ≠ 'e' && c ≠ 'E'
  let exponent ←
    match cs.drop mantissa.length with
    | [] => some 0
    | _ :: rest => signedRun? rest
  let before := mantissa.takeWhile (· ≠ '.')
  let whole ← optionalRun? before
  let places ← optionalRun? (mantissa.drop (before.length + 1))
  if whole.isEmpty && places.isEmpty then none
  else some (nearest negative (whole ++ places) (exponent - places.length))

/-- The floating-point number that a text spells. -/
def readFloat? (text : String) : Option Float :=
  let (negative, cs) := splitSign (Text.strip text).toList
  let word := String.ofList (cs.map Char.toLower)
  if word = "inf" || word = "infinity" then
    some (Binary64.assemble negative Binary64.infinityBits)
  else if word = "nan" then some Binary64.notANumber
  else readDecimal? negative cs

end Juxta.Decimal
