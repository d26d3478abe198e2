import Juxta.Node.Number
import Juxta.Node.Printer

/-!
# Values

The values of the language, their types and their two texts.

## What is here

* `Native` — a function that the host provides, by what it does.
* `LiteralType` — the types of the values that leaves stand for.
* `Value` — the values; `Value.type`, `Value.text`, `Value.echo` and `Value.isTruthy` read them.
* `wrap` — integers are reduced to 64 bits.
-/

set_option autoImplicit false
namespace Juxta

/-! ## Integers -/

/-- The integer of 64 bits in two's complement that differs from `n` by a multiple of `2 ^ 64`. -/
def wrap (n : Int) : Int :=
  n.bmod (Nat.pow 2 64)

/-- The low 64 bits are kept, and those beyond the greatest integer stand for the negative ones. -/
theorem wrap_eq_masked (n : Int) :
    wrap n =
      let low := n % Nat.pow 2 64
      if Nat.pow 2 63 - 1 < low then low - Nat.pow 2 64 else low := by
  have hhalf : ((Nat.pow 2 64 : Nat) : Int) = 2 * (Nat.pow 2 63 : Nat) := by decide
  rw [wrap, Int.bmod]
  dsimp only
  split <;> split <;> omega

/-! ## Functions of the host -/

/-- What a native function does with its arguments. -/
inductive Action where
  /-- Writes the arguments on a line of output. -/
  | printLine
  /-- Ends the run with the exit code that is its only argument. -/
  | quit
  /-- Answers nothing. -/
  | nothing
  /-- Answers something that is not a value, and that is shown like this. -/
  | foreign (shown : String)
  /-- Answers how many arguments there are. -/
  | count
  /-- Answers the name of the type of the first argument. -/
  | typeOfFirst
  /-- Answers the last argument. -/
  | last
deriving DecidableEq, Repr

/-- A function that the host provides.  It takes any number of arguments unless it says how many. -/
structure Native where
  name : String
  arity : Option Int
  action : Action
deriving DecidableEq, Repr

/-! ## Types -/

/-- The types of the values that leaves stand for. -/
inductive LiteralType where
  | int
  | float
  | str
deriving DecidableEq, Repr

/-- The types of values. -/
inductive ValueType where
  | nil
  | int
  | float
  | str
  | bool
  | quoted
  | native
deriving DecidableEq, Repr

/-- The name of a type. -/
def ValueType.name : ValueType → String
  | nil => "Nil"
  | int => "Int"
  | float => "Float"
  | str => "Str"
  | bool => "Bool"
  | quoted => "Quoted"
  | native => "Native"

namespace LiteralType

/-- A type of literals among all types. -/
def valueType : LiteralType → ValueType
  | int => .int
  | float => .float
  | str => .str

/-- The text of a content under a type.  An integer under the type of floating-point numbers is
written as one of these. -/
def write : LiteralType → Node.Payload → String
  | float, .int n => formatInteger n
  | float, .bool b => formatInteger (Number.ofTruth b)
  | float, .float x => formatFloat x
  | _, content => content.plain

end LiteralType

/-! ## Values -/

/-- A value of the language. -/
inductive Value where
  | nil
  | int (n : Int)
  | float (x : Float)
  | str (s : String)
  | bool (b : Bool)
  /-- A leaf of a tree built by hand whose content does not fit its type. -/
  | unfit (type : LiteralType) (content : Node.Payload)
  /-- A quoted tree, which is never evaluated. -/
  | quoted (node : Node)
  | native (f : Native)

namespace Value

/-- The value that a leaf of the given type and content stands for. -/
def ofLiteral : LiteralType → Node.Payload → Value
  | .int, .int n => int n
  | .float, .float x => float x
  | .str, .str s => str s
  | type, content => unfit type content

/-- The type and the content of a value that a leaf can stand for. -/
def literal? : Value → Option (LiteralType × Node.Payload)
  | int n => some (.int, .int n)
  | float x => some (.float, .float x)
  | str s => some (.str, .str s)
  | unfit type content => some (type, content)
  | nil | bool _ | quoted _ | native _ => none

/-- A literal has the type and the content that it was made from. -/
@[simp] theorem literal?_ofLiteral (type : LiteralType) (content : Node.Payload) :
    (ofLiteral type content).literal? = some (type, content) := by
  cases type <;> cases content <;> rfl

/-- The type of a value. -/
def type : Value → ValueType
  | nil => .nil
  | int _ => .int
  | float _ => .float
  | str _ => .str
  | bool _ => .bool
  | unfit type _ => type.valueType
  | quoted _ => .quoted
  | native _ => .native

/-- The text of a value as it is printed: a string stands for itself. -/
def text : Value → String
  | nil => "nil"
  | int n => toString n
  | float x => formatFloat x
  | str s => s
  | bool b => if b then "true" else "false"
  | unfit type content => type.write content
  | quoted node => node.compact
  | native f => "<native " ++ f.name ++ ">"

/-- The text of a value as a session echoes it: a string stands between quotes, without escapes. -/
def echo : Value → String
  | str s => Text.inQuotes s
  | unfit .str content => Text.inQuotes content.plain
  | v => v.text

/-- Only false and nil count as false. -/
def isTruthy : Value → Bool
  | bool b => b
  | nil => false
  | _ => true

end Value
end Juxta
