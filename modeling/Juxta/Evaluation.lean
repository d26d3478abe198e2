import Juxta.Environment
import Juxta.Value.Operator

/-!
# Evaluation

A tree is evaluated at a frame of an environment.  Evaluation yields a value, or it is interrupted:
by a failure, by the exit function, or by a defect of a tree built by hand.  What was bound and
printed before an interruption stays.

A failure gets its place from the node that raised it.  If that node does not know where it stands
in the source of the frame, the next node around it decides, and so on outward.

## What is here

* `Machine` — the environment, and what has been printed.
* `Eval` — an evaluation: a computation over the machine that can be interrupted.
* `Native.call` — calling a native function.
* `Node.eval` — evaluating a tree.
-/

set_option autoImplicit false
namespace Juxta

/-! ## The machine -/

/-- The state of an evaluation: the environment, and for every line printed so far the values on it,
the latest line first. -/
structure Machine where
  env : Environment
  printed : List (List Value)

/-- A machine that has not printed anything. -/
def Machine.ofEnvironment (env : Environment) : Machine := ⟨env, []⟩

/-- Everything printed so far. -/
def Machine.output (m : Machine) : String :=
  String.join (m.printed.reverse.map fun line => String.join (line.map Value.text) ++ "\n")

/-- Why an evaluation did not end with a value. -/
inductive Interrupt where
  | failure (f : Failure)
  | exit (code : Node.Payload)
  | defect (d : Node.Defect)

/-- An evaluation. -/
abbrev Eval (α : Type) : Type :=
  EStateM Interrupt Machine α

namespace Eval

variable {α : Type}

/-- Fails for the given cause. -/
def fail (cause : Cause) : Eval α :=
  throw (.failure (.ofCause cause))

/-- The value of the name that an identifier holds, at a frame. -/
def lookup (frame : Nat) (identifier : Node.Payload) : Eval Value := do
  match identifier.name?.bind ((← get).env.get? frame) with
  | some v => pure v
  | none => fail (.unbound identifier.plain)

/-- Binds the name that an identifier holds, in a frame. -/
def define (frame : Nat) (identifier : Node.Payload) (v : Value) : Eval Unit :=
  match identifier.name? with
  | some name => modify fun m => { m with env := m.env.define frame name v }
  | none => pure ()

/-- Prints a line with the given values. -/
def printLine (values : List Value) : Eval Unit :=
  modify fun m => { m with printed := values :: m.printed }

/-- Gives a failure without a place that of an offset in the source of a frame. -/
def locating (frame : Nat) (start : Option Int) (act : Eval α) : Eval α :=
  fun m =>
    match act m with
    | .error (.failure f) m' => .error (.failure (f.locate (m'.env.source? frame) start)) m'
    | result => result

/-- An evaluation that consists of a result. -/
def ofResult : Except Cause α → Eval α
  | .ok a => pure a
  | .error cause => fail cause

end Eval

/-! ## Native functions -/

/-- What an action does with the arguments of a call of `name`. -/
def Action.run (name : String) (args : List Value) : Action → Eval Value
  | printLine => do
    Eval.printLine args
    pure .nil
  | quit =>
    match args with
    | [v] =>
      match v.literal? with
      | some (.int, code) => throw (.exit code)
      | _ => Eval.fail (.exitCode v.type)
    | _ => Eval.fail (.exitArity args.length)
  | nothing => pure .nil
  | foreign shown => Eval.fail (.foreignAnswer name shown)
  | count => pure (.int args.length)
  | typeOfFirst => pure ((args.head?.map (.str ·.type.name)).getD .nil)
  | last => pure (args.getLast?.getD .nil)

/-- Calls a native function.  The number of arguments is checked first, if it is fixed. -/
def Native.call (f : Native) (args : List Value) : Eval Value :=
  match f.arity with
  | some wanted =>
    if args.length = wanted then f.action.run f.name args
    else Eval.fail (.arity f.name wanted args.length)
  | none => f.action.run f.name args

/-- The native function that a callee is. -/
def Value.asNative : Value → Except Cause Native
  | native f => .ok f
  | v => .error (.notCallable v)

/-! ## Trees -/

namespace Node

/-- The evaluation of a leaf. -/
def evalLeaf (frame : Nat) (kind : Kind) (payload : Payload) (start : Option Int) : Eval Value :=
  match kind with
  | .identifier => Eval.lookup frame payload
  | .integer => pure (.ofLiteral .int payload)
  | .float => pure (.ofLiteral .float payload)
  | .string => pure (.ofLiteral .str payload)
  | .program | .expressions => pure .nil
  | .quoted => pure (.quoted (leaf kind payload start))
  | .functionCall => throw (.defect .noCallee)
  | .binary => throw (.defect (.operandCount 0))
  | .parenthesis => throw (.defect .emptyParentheses)
  | .block | .propertyAccess | .unquote => Eval.fail (.notImplemented kind)
  | .operator | .other _ => Eval.fail (.unexpectedNode kind)

/-- The payload of the identifier that an assignment binds. -/
def assignmentTarget (target : Node) : Eval Payload :=
  match target with
  | leaf .identifier p _ => pure p
  | branch .identifier _ _ => throw (.defect (.notLeaf .identifier .identifier))
  | _ => Eval.fail .expectedIdentifier

/-- The symbol of an operator node. -/
def operatorSymbol (operator : Node) : Eval String :=
  match operator.leafValue .operator with
  | .ok p => pure p.plain
  | .error d => throw (.defect d)

/-- An operator between two operands, given how these are evaluated.  An assignment evaluates only
its right side and yields nil.  The logical operators yield the operand that decides, and evaluate
the right one only if the left one does not.  All others evaluate both, the left one first. -/
def evalBinary (frame : Nat) (symbol : String) (target : Node) (left right : Eval Value) :
    Eval Value :=
  if symbol = ":=" then do
    let identifier ← assignmentTarget target
    let v ← right
    Eval.define frame identifier v
    pure .nil
  else if symbol = "&&" then do
    let v ← left
    if v.isTruthy then right else pure v
  else if symbol = "||" then do
    let v ← left
    if v.isTruthy then pure v else right
  else do
    let l ← left
    let r ← right
    Eval.ofResult (applyOperator symbol l r)

mutual

/-- The evaluation of a tree at a frame. -/
def eval (frame : Nat) : Node → Eval Value
  | leaf kind payload start => Eval.locating frame start (evalLeaf frame kind payload start)
  | branch kind children start => Eval.locating frame start <|
    match kind, children with
    | .program, nodes => do
      let _ ← evalAll frame nodes
      pure .nil
    | .expressions, nodes => do
      let values ← evalAll frame nodes
      pure (values.getLast?.getD .nil)
    | .functionCall, callee :: args => do
      let v ← eval frame callee
      let f ← Eval.ofResult v.asNative
      let values ← evalAll frame args
      f.call values
    | .binary, [lhs, operator, rhs] => do
      let symbol ← operatorSymbol operator
      evalBinary frame symbol lhs (eval frame lhs) (eval frame rhs)
    | .quoted, nodes => pure (.quoted (branch .quoted nodes start))
    | .parenthesis, inner :: _ => eval frame inner
    | .functionCall, [] => throw (.defect .noCallee)
    | .binary, operands => throw (.defect (.operandCount operands.length))
    | .parenthesis, [] => throw (.defect .emptyParentheses)
    | .identifier, _ | .integer, _ | .float, _ | .string, _ =>
      throw (.defect (.notLeaf kind kind))
    | .block, _ | .propertyAccess, _ | .unquote, _ => Eval.fail (.notImplemented kind)
    | .operator, _ | .other _, _ => Eval.fail (.unexpectedNode kind)

/-- The evaluation of some trees from left to right. -/
def evalAll (frame : Nat) : List Node → Eval (List Value)
  | [] => pure []
  | n :: ns => do
    let v ← eval frame n
    let vs ← evalAll frame ns
    pure (v :: vs)

end

end Node
end Juxta
