import Juxta.Node.Printer

/-!
# The trace of a parse

On demand the parser records when it enters and leaves a grammar rule.

## What is here

* `Parser.Rule` — the rules that are traced, with their names.
* `Parser.Event` — one record of a trace, and its text.
-/

set_option autoImplicit false
namespace Juxta.Parser

/-- The grammar rules that leave a trace. -/
inductive Rule where
  | program
  | expressions
  | expression
  | intermediate
  | leftBinary
  | propertyOrValue
  | value
deriving DecidableEq, Repr

/-- The name of a rule in a trace. -/
def Rule.name : Rule → String
  | program => "parse_program"
  | expressions => "parse_expressions"
  | expression => "parse_expression"
  | intermediate => "parse_intermediate"
  | leftBinary => "parse_left_binary"
  | propertyOrValue => "parse_property_or_value"
  | value => "parse_value"

/-- One record of a trace: a rule is entered at some token, or left. -/
inductive Event where
  | enter (depth : Nat) (rule : Rule) (found : String)
  | exit (depth : Nat) (rule : Rule)
deriving DecidableEq, Repr

/-- The text of a record, indented by the number of rules around it. -/
def Event.text : Event → String
  | enter depth rule found => Node.indent depth ++ "enter " ++ rule.name ++ "() at " ++ found
  | exit depth rule => Node.indent depth ++ "exit " ++ rule.name ++ "()"

end Juxta.Parser
