import Juxta.Text.Position
import Juxta.Value.Basic

/-!
# Failures of evaluation

## What is here

* `Cause` — why an evaluation fails, and the wording of every cause.
* `Failure` — a cause with its place in the source, as far as it is known.
-/

set_option autoImplicit false
namespace Juxta

/-- Why an evaluation fails. -/
inductive Cause where
  | unbound (name : String)
  | notCallable (value : Value)
  | expectedIdentifier
  | unsupportedOperator (symbol : String) (left right : ValueType)
  /-- A native function of fixed arity got another number of arguments. -/
  | arity (name : String) (wanted : Int) (found : Nat)
  /-- The exit function did not get exactly one argument. -/
  | exitArity (found : Nat)
  /-- The exit code is not an integer. -/
  | exitCode (found : ValueType)
  /-- A native function answered something that is not a value. -/
  | foreignAnswer (name shown : String)
  | zeroDivision
  /-- The language has no evaluation for nodes of this kind. -/
  | notImplemented (kind : Node.Kind)
  /-- Nodes of this kind do not stand for values. -/
  | unexpectedNode (kind : Node.Kind)
  /-- A failure that the host reports in its own words. -/
  | reported (message : String)

/-- The wording of a cause. -/
def Cause.message : Cause → String
  | unbound name => "unbound variable " ++ Text.inQuotes name
  | notCallable v => "not a function: " ++ v.echo
  | expectedIdentifier => "expected identifier on left side of assignment"
  | unsupportedOperator symbol left right =>
    "cannot apply operator " ++ Text.inQuotes symbol ++ " to types " ++ left.name ++ " and " ++
      right.name
  | arity name wanted found =>
    name ++ " expects " ++ toString wanted ++ " argument(s); got " ++ toString found
  | exitArity found => "exit expects 1 argument; got " ++ toString found
  | exitCode found => "exit expects an Int exit code; got " ++ found.name
  | foreignAnswer name shown => name ++ " returned a non-Ergolas value: " ++ shown
  | zeroDivision => "integer division by zero"
  | notImplemented kind => "evaluation of " ++ kind.name ++ " is not implemented"
  | unexpectedNode kind => "unexpected node " ++ kind.name
  | reported message => message

/-- A place in a source, as far as it is known. -/
structure Place where
  line : Option Int
  column : Option Int
deriving DecidableEq, Repr

namespace Place

/-- No place. -/
def unknown : Place := ⟨none, none⟩

/-- The place of a position. -/
def ofPosition (p : Position) : Place := ⟨some p.line, some p.column⟩

/-- How a message ends that has this place. -/
def ending : Place → String
  | ⟨none, _⟩ => ""
  | ⟨some line, none⟩ => " (line " ++ toString line ++ ")"
  | ⟨some line, some column⟩ => " (line " ++ toString line ++ ", col " ++ toString column ++ ")"

end Place

/-- A failed evaluation: its cause, and where it happened. -/
structure Failure where
  cause : Cause
  place : Place

namespace Failure

/-- A failure whose place is not known yet. -/
def ofCause (cause : Cause) : Failure := ⟨cause, .unknown⟩

/-- The text of a failure. -/
def message (f : Failure) : String :=
  f.cause.message ++ f.place.ending

/-- Gives a failure the place of an offset in a source.  It keeps a place that it has, and it stays
without one where the offset or the source is missing or the offset lies outside the source. -/
def locate (f : Failure) (source : Option String) (start : Option Int) : Failure :=
  match f.place.line, start, source with
  | none, some offset, some text =>
    match Position.ofOffset? text offset with
    | some p => { f with place := .ofPosition p }
    | none => f
  | _, _, _ => f

end Failure
end Juxta
