import Juxta.Decimal.Binary64
import Juxta.Node.Basic

/-!
# Payloads as numbers

Every payload but a text counts as a number: an integer, or a floating-point number.  A truth value
counts as the integer 0 or 1.

## What is here

* `Number` — the two sorts of numbers, compared by value across the sorts.
* `Node.Payload.number?` — the number that a payload counts as.
-/

set_option autoImplicit false
namespace Juxta

/-- An integer of any size, or a floating-point number. -/
inductive Number where
  | int (n : Int)
  | float (x : Float)

namespace Number

/-- The integer that a truth value counts as. -/
def ofTruth (b : Bool) : Int :=
  if b then 1 else 0

/-- Whether two numbers have the same value.  Nothing equals not-a-number. -/
def equal : Number → Number → Bool
  | int m, int n => m = n
  | float x, float y => x == y
  | float x, int n | int n, float x => (Binary64.ofFloat x).whole? = some n

/-- Whether a number is zero, of either sign. -/
def isZero (a : Number) : Bool :=
  a.equal (int 0)

/-- Whether a number is neither infinite nor not-a-number. -/
def isFinite : Number → Bool
  | int _ => true
  | float x =>
    match Binary64.ofFloat x with
    | .finite _ _ _ => true
    | _ => false

/-- The floating-point number nearest to a number. -/
def toFloat : Number → Float
  | int n => Binary64.ofRatio (n < 0) n.natAbs 1
  | float x => x

/-- The payload that holds a number. -/
def payload : Number → Node.Payload
  | int n => .int n
  | float x => .float x

end Number

/-- The number that a payload counts as; a text counts as none. -/
def Node.Payload.number? : Node.Payload → Option Number
  | int n => some (.int n)
  | float x => some (.float x)
  | bool b => some (.int (Number.ofTruth b))
  | str _ => none

end Juxta
