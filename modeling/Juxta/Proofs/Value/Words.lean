import Juxta.Proofs.Value.Division

/-!
# Integers as words

The integers of the language are words of 64 bits, and its operators are the operations on words.
The model computes with plain integers, and wraps; this file compares the two.  Wrapping respects
sums, differences and products, so that it makes no difference whether a computation with these
wraps at every step or once at its end.

## What is here

* `Operator.onWords` — an operator on words; `Operator.onInts_toInt` — it does the same to integers.
* `wrap_wrap_add`, `wrap_wrap_sub`, `wrap_wrap_mul` — wrapping twice is wrapping once.
* `Node.Denotes` — the exact value of a tree with sums, differences and products of literals;
  `Node.Denotes.eval` — it is evaluated to that value, wrapped.
-/

set_option autoImplicit false
namespace Juxta

/-! ## Words -/

/-- What an operator does to two words of 64 bits. -/
def Operator.onWords : Operator → Int64 → Int64 → Except Cause Int64
  | add, a, b => .ok (a + b)
  | sub, a, b => .ok (a - b)
  | mul, a, b => .ok (a * b)
  | div, a, b => if b = 0 then .error .zeroDivision else .ok (a / b)
  | mod, a, b => if b = 0 then .error .zeroDivision else .ok (a % b)

/-- **An operator does to integers of 64 bits what it does to words.** -/
theorem Operator.onInts_toInt (op : Operator) (a b : Int64) :
    op.onInts a.toInt b.toInt = (op.onWords a b).map Int64.toInt := by
  have hzero : b.toInt = 0 ↔ b = 0 := Int64.toInt_inj (y := 0)
  cases op with
  | add => exact congrArg Except.ok (Int64.toInt_add a b).symm
  | sub => exact congrArg Except.ok (Int64.toInt_sub a b).symm
  | mul => exact congrArg Except.ok (Int64.toInt_mul a b).symm
  | div =>
    simp only [onInts, onWords, hzero]
    split
    · rfl
    · exact congrArg Except.ok (Int64.toInt_div a b).symm
  | mod =>
    simp only [onInts, onWords, hzero]
    split
    · rfl
    · exact congrArg Except.ok (Int64.toInt_mod a b).symm

/-! ## Wrapping once -/

theorem wrap_wrap_add (a b : Int) : wrap (wrap a + wrap b) = wrap (a + b) :=
  (Int.add_bmod a b _).symm

theorem wrap_wrap_sub (a b : Int) : wrap (wrap a - wrap b) = wrap (a - b) :=
  (Int.sub_bmod a b _).symm

theorem wrap_wrap_mul (a b : Int) : wrap (wrap a * wrap b) = wrap (a * b) :=
  (Int.mul_bmod a b _).symm

/-- The result of an operator without a bound for the integers, where it has one. -/
def Operator.exact? : Operator → Option (Int → Int → Int)
  | add => some (· + ·)
  | sub => some (· - ·)
  | mul => some (· * ·)
  | div | mod => none

/-- Operands may be wrapped beforehand. -/
theorem Operator.onInts_wrap {op : Operator} {f : Int → Int → Int} (h : op.exact? = some f)
    (a b : Int) : op.onInts (wrap a) (wrap b) = .ok (wrap (f a b)) := by
  cases op with
  | add =>
    obtain rfl := Option.some.inj h
    exact congrArg Except.ok (wrap_wrap_add a b)
  | sub =>
    obtain rfl := Option.some.inj h
    exact congrArg Except.ok (wrap_wrap_sub a b)
  | mul =>
    obtain rfl := Option.some.inj h
    exact congrArg Except.ok (wrap_wrap_mul a b)
  | div | mod => cases h

/-! ## Trees -/

/-- An operator between two nodes applies to their values. -/
theorem Node.eval_binary_symbol (op : Operator) (lhs rhs : Node) (place start : Option Int)
    (frame : Nat) :
    (Node.branch .binary [lhs, .leaf .operator (.str op.symbol) place, rhs] start).eval frame =
      Eval.locating frame start (do
        let l ← lhs.eval frame
        let r ← rhs.eval frame
        Eval.ofResult (op.apply l r)) := by
  rw [Node.eval_binary rfl]
  cases op <;> rfl

/-- The tree is made of literals, parentheses, sums, differences and products, and its exact value
is the given one. -/
inductive Node.Denotes : Node → Int → Prop
  | literal {n : Int} {start : Option Int} (hlow : 0 ≤ n) (hhigh : n ≤ Parser.maxInteger) :
      Denotes (.leaf .integer (.int n) start) n
  | parentheses {inner : Node} {n : Int} {start : Option Int} (h : Denotes inner n) :
      Denotes (.branch .parenthesis [inner] start) n
  | operation {op : Operator} {f : Int → Int → Int} {lhs rhs : Node} {a b : Int}
      {place start : Option Int} (hop : op.exact? = some f) (hlhs : Denotes lhs a)
      (hrhs : Denotes rhs b) :
      Denotes (.branch .binary [lhs, .leaf .operator (.str op.symbol) place, rhs] start) (f a b)

/-- **A computation wraps once in effect**: intermediate results that are out of range never
show. -/
theorem Node.Denotes.eval {node : Node} {n : Int} (h : node.Denotes n) (frame : Nat) (m : Machine) :
    node.eval frame m = .ok (.int (wrap n)) m := by
  induction h generalizing m with
  | @literal n start hlow hhigh =>
    have hrange : IsInt64 n := by
      have hpow : (↑(Nat.pow 2 63) : Int) = Parser.maxInteger + 1 := by decide
      rw [IsInt64]
      omega
    rw [wrap_eq_self hrange]
    rfl
  | parentheses _ ih =>
    rw [Node.eval, Eval.locating, ih]
  | operation hop _ _ ihl ihr =>
    rw [Node.eval_binary_symbol, Eval.locating, Eval.bind_of_ok (ihl m), Eval.bind_of_ok (ihr m),
      Operator.apply, Operator.onInts_wrap hop]
    rfl

end Juxta
