import Juxta.Value.Failure

/-!
# Operators

An operator applies to two values of the same type: integers, floating-point numbers or, for `+`,
strings.  There are no conversions.  In a tree built by hand the content of a leaf may not fit its
type; there the operator is chosen by the types, and it is applied to the contents as far as that
makes sense.

Integers have 64 bits, and their arithmetic wraps around.  Their division truncates, so that a
remainder has the sign of its dividend.  Floating-point arithmetic never fails.

## What is here

* `Operator` — the five operators.
* `Operator.onInts`, `Operator.onFloats` — what they do to numbers of one type.
* `Operator.onInts_div`, `Operator.onInts_mod` — division by way of absolute values and signs.
* `Operator.onLiterals?` — what they do where a content does not fit its type.
* `Operator.apply` — what an operator does to two values.
* `applyOperator` — the same for an operator given by its symbol.
-/

set_option autoImplicit false
namespace Juxta

/-- The operators on values. -/
inductive Operator where
  | add
  | sub
  | mul
  | div
  | mod
deriving DecidableEq, Repr

namespace Operator

/-- All operators, by the order of their symbols. -/
def all : List Operator := [mod, mul, add, sub, div]

/-- The symbol of an operator. -/
def symbol : Operator → String
  | add => "+"
  | sub => "-"
  | mul => "*"
  | div => "/"
  | mod => "%"

/-- The operator with the given symbol. -/
def ofSymbol? (text : String) : Option Operator :=
  all.find? (·.symbol == text)

/-- What an operator does to two integers.  The remainder is in range whenever the dividend is, and
is not wrapped. -/
def onInts : Operator → Int → Int → Except Cause Int
  | add, a, b => .ok (wrap (a + b))
  | sub, a, b => .ok (wrap (a - b))
  | mul, a, b => .ok (wrap (a * b))
  | div, a, b => if b = 0 then .error .zeroDivision else .ok (wrap (a.tdiv b))
  | mod, a, b => if b = 0 then .error .zeroDivision else .ok (a.tmod b)

/-- The quotient of the absolute values, negated where the signs differ, is what is wrapped. -/
theorem onInts_div (a : Int) {b : Int} (hb : b ≠ 0) :
    div.onInts a b = .ok (wrap
      (if a < 0 ↔ b < 0 then ↑(a.natAbs / b.natAbs) else -↑(a.natAbs / b.natAbs))) := by
  rw [onInts, if_neg hb]
  refine congrArg (fun q => Except.ok (wrap q)) ?_
  cases a with
  | ofNat m =>
    have ha : ¬ Int.ofNat m < 0 := Int.not_lt.2 (Int.natCast_nonneg m)
    cases b with
    | ofNat n => exact (if_pos (iff_of_false ha (Int.not_lt.2 (Int.natCast_nonneg n)))).symm
    | negSucc n => exact (if_neg fun h => ha (h.2 (Int.negSucc_lt_zero n))).symm
  | negSucc m =>
    have ha : Int.negSucc m < 0 := Int.negSucc_lt_zero m
    cases b with
    | ofNat n => exact (if_neg fun h => Int.not_lt.2 (Int.natCast_nonneg n) (h.1 ha)).symm
    | negSucc n => exact (if_pos (iff_of_true ha (Int.negSucc_lt_zero n))).symm

/-- The remainder of the absolute values gets the sign of the dividend. -/
theorem onInts_mod (a : Int) {b : Int} (hb : b ≠ 0) :
    mod.onInts a b =
      .ok (if 0 ≤ a then ↑(a.natAbs % b.natAbs) else -↑(a.natAbs % b.natAbs)) := by
  rw [onInts, if_neg hb]
  refine congrArg Except.ok ?_
  cases a with
  | ofNat m =>
    rw [if_pos (show 0 ≤ Int.ofNat m from Int.natCast_nonneg m)]
    cases b <;> rfl
  | negSucc m =>
    rw [if_neg (Int.not_le.2 (Int.negSucc_lt_zero m))]
    cases b <;> rfl

/-- What an operator does to two floating-point numbers. -/
def onFloats : Operator → Float → Float → Float
  | add, x, y => x + y
  | sub, x, y => x - y
  | mul, x, y => x * y
  | div, x, y => x / y
  | mod, x, y => Binary64.remainder x y

/-! ## Contents that do not fit

An operator looks only at the types of its operands.  Where a content does not fit its type, it
counts by its number, if it has one. -/

/-- What an operator does to two numbers.  Integers are added, subtracted and multiplied exactly,
and their ratio is rounded once; otherwise the operation is one of floating-point numbers. -/
def onNumbers : Operator → Number → Number → Number
  | add, .int a, .int b => .int (a + b)
  | sub, .int a, .int b => .int (a - b)
  | mul, .int a, .int b => .int (a * b)
  | div, .int a, .int b =>
    if b = 0 then .float (Number.toFloat (.int a) / 0.0)
    else .float (Binary64.ofRatio ((a < 0) != (b < 0)) a.natAbs b.natAbs)
  | op, a, b => .float (op.onFloats a.toFloat b.toFloat)

/-- The remainder under the type of integers where one of the numbers is not an integer: its sign is
that of the dividend, and it has none where the dividend is zero. -/
def signedRemainder (a b : Float) : Float :=
  let r := Binary64.remainder a.abs b.abs
  if a < 0.0 then -r else r

/-- What an operator does to two contents of the type of integers.  Only integers have sums,
products and ratios, but other numbers have remainders. -/
def onIntContents? (op : Operator) (l r : Node.Payload) : Option (Except Cause Value) :=
  if (op = div || op = mod) && r.number?.any Number.isZero then some (.error .zeroDivision)
  else
    match op, l.number?, r.number? with
    | op, some (.int a), some (.int b) => some ((op.onInts a b).map .int)
    | mod, some a, some b => some (.ok (.unfit .int (.float (signedRemainder a.toFloat b.toFloat))))
    | _, _, _ => none

/-- What an operator does to two contents where no range is kept: texts can be added, and numbers
be combined in any way. -/
def onFreeContents? (op : Operator) : Node.Payload → Node.Payload → Option Node.Payload
  | .str s, .str t => if op = add then some (.str (s ++ t)) else none
  | l, r => do return (op.onNumbers (← l.number?) (← r.number?)).payload

/-- Whether a division of floating-point numbers has no remainder on account of one of its sides,
whatever the other is: a divisor that is zero, or a dividend that is not finite. -/
def lacksRemainder (dividend divisor : Node.Payload) : Bool :=
  divisor.number?.any Number.isZero || dividend.number?.any (!·.isFinite)

/-- What an operator does to two contents of a type; nothing where it does not apply. -/
def onContents? (op : Operator) (l r : Node.Payload) : LiteralType → Option (Except Cause Value)
  | .int => op.onIntContents? l r
  | .float =>
    if op = mod && lacksRemainder l r then some (.ok (.float Binary64.notANumber))
    else (op.onFreeContents? l r).map (.ok <| .ofLiteral .float ·)
  | .str => if op = add then (op.onFreeContents? l r).map (.ok <| .ofLiteral .str ·) else none

/-- What an operator does to two literals of the same type; nothing where it does not apply. -/
def onLiterals? (op : Operator) (left right : Value) : Option (Except Cause Value) := do
  let (type, l) ← left.literal?
  let (type', r) ← right.literal?
  if type = type' then op.onContents? l r type else none

/-! ## Values -/

/-- What an operator does to two values. -/
def apply (op : Operator) (left right : Value) : Except Cause Value :=
  match left, right with
  | .int a, .int b => (op.onInts a b).map .int
  | .float x, .float y => .ok (.float (op.onFloats x y))
  | .str s, .str t =>
    if op = add then .ok (.str (s ++ t))
    else .error (.unsupportedOperator op.symbol .str .str)
  | l, r => (op.onLiterals? l r).getD (.error (.unsupportedOperator op.symbol l.type r.type))

end Operator

/-- Applies the operator with the given symbol to two values. -/
def applyOperator (symbol : String) (left right : Value) : Except Cause Value :=
  match Operator.ofSymbol? symbol with
  | some op => op.apply left right
  | none => .error (.unsupportedOperator symbol left.type right.type)

end Juxta
