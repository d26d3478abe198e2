import Juxta.Decimal.Numeral
import Juxta.Parser.Basic

/-!
# The grammar

```
Program         ::= Statements
Statements      ::= ( Expression ";"? )*
Expression      ::= Intermediate ( RightOperator Expression )?
Intermediate    ::= PropertyOrValue ( LeftOperator PropertyOrValue )+
                  | PropertyOrValue ( Argument ","? )*
Argument        ::= PropertyOrValue ( LeftOperator PropertyOrValue )*
PropertyOrValue ::= Value ( "." Identifier )*
Value           ::= "(" Expression ")" | "{" Statements "}"
                  | Identifier | Integer | Float | String
                  | ":" PropertyOrValue | "$" "(" Expression ")"
```

There is no table of precedence: operators of one class chain to the left, those of the other nest
to the right and bind weaker.  A value that follows a value makes a call, and a call goes on until
a token that ends it.  Punctuation is recognised by the text of a token alone.

The rules refer to each other only after they have consumed a token.  Each rule is therefore a
plain definition in terms of the two rules that it may use *further ahead*, and the knot is tied by
recursion on a bound for the number of tokens ahead.

## What is here

* `Parser.Settings` — whether rules are traced, and in which order the forms of a value are tried.
* `Parser.Nested` — the two rules that other rules use further ahead.
* `Parser.grammar` — these two rules, for at most so many tokens ahead.
* `Parser.program`, `Parser.expressions`, `Parser.expression`, … — the rules.
-/

set_option autoImplicit false
namespace Juxta.Parser

/-! ## Trees from tokens -/

/-- The largest integer that a literal can denote. -/
def maxInteger : Int := 9223372036854775807

/-- The leaf of an identifier or operator: its text. -/
def textLeaf (kind : Node.Kind) (t : Token) : Node :=
  .leaf kind (.str t.text) (some t.pos)

/-- An operator between two operands; it starts where its left operand does. -/
def binaryNode (lhs : Node) (op : Token) (rhs : Node) : Node :=
  .branch .binary [lhs, textLeaf .operator op, rhs] lhs.start

/-- Access to a property of a value. -/
def propertyNode (base : Node) (name : Token) : Node :=
  .branch .propertyAccess [base, textLeaf .identifier name] base.start

/-- A call, or the callee alone when there are no arguments. -/
def callNode (callee : Node) (args : List Node) : Node :=
  if args.isEmpty then callee else .branch .functionCall (callee :: args) callee.start

/-- A node that starts at a token of its own. -/
def nodeAt (kind : Node.Kind) (t : Token) (children : List Node) : Node :=
  .branch kind children (some t.pos)

/-- The value of an integer token. -/
def integerOf (t : Token) : Int :=
  (Decimal.readInteger? t.text).getD 0

/-- The leaf of an integer. -/
def integerLeaf (t : Token) : Node :=
  .leaf .integer (.int (integerOf t)) (some t.pos)

/-- The leaf of a floating-point number. -/
def floatLeaf (t : Token) : Node :=
  .leaf .float (.float ((Decimal.readFloat? t.text).getD 0)) (some t.pos)

/-- The text of a string token between its quotes.  Escapes are kept as they stand. -/
def stringBody (t : Token) : String :=
  String.ofList (t.text.toList.tail.dropLast)

/-- The leaf of a string. -/
def stringLeaf (t : Token) : Node :=
  .leaf .string (.str (stringBody t)) (some t.pos)

/-! ## The parts of the grammar -/

/-- The forms of a value. -/
inductive ValueForm where
  | parens
  | block
  | identifier
  | integer
  | float
  | string
  | quoted
  | unquote
deriving DecidableEq, Repr

/-- What a parse can be told beforehand. -/
structure Settings where
  /-- Whether the rules leave a trace. -/
  tracing : Bool
  /-- The forms of a value in the order in which they are tried. -/
  forms : List ValueForm

/-- The usual settings: no trace, and the order in which the grammar lists the forms. -/
def Settings.standard : Settings where
  tracing := false
  forms := [.parens, .block, .identifier, .integer, .float, .string, .quoted, .unquote]

/-- The rules that other rules use after they have consumed a token. -/
structure Nested where
  expression : Parser Node
  propertyOrValue : Parser Node

/-- Whether a token ends a call. -/
def endsCall (t : Token) : Bool :=
  t.kind = .newline ||
    [";", ")", "]", "\x7d", ":=", "::", "<-", "->", "|>"].contains t.text

variable (settings : Settings) (nested : Nested)

/-- Statements up to a closing brace or the end.  Line ends, and a semicolon after each statement,
are skipped. -/
def statements : Parser (List Node) := do
  skipNewlines
  many (·.text ≠ "\x7d") do
    let node ← nested.expression
    skipText ";"
    skipNewlines
    pure node

/-- An expression in parentheses. -/
def parens : Parser (Option Node) := do
  match ← takeIf (·.text = "(") with
  | none => pure none
  | some t =>
    let inner ← nested.expression
    let _ ← expectText ")"
    pure (some (nodeAt .parenthesis t [inner]))

/-- Statements in braces. -/
def block : Parser (Option Node) := do
  match ← takeIf (·.text = "\x7b") with
  | none => pure none
  | some t =>
    skipNewlines
    let body ← statements nested
    skipNewlines
    let _ ← expectText "\x7d"
    pure (some (nodeAt .block t body))

/-- A token of the given class, as a leaf. -/
def literal (kind : Token.Kind) (toLeaf : Token → Node) : Parser (Option Node) := do
  return (← takeIf (·.kind = kind)).map toLeaf

/-- An integer.  One that is too large is an error at its token, which is not consumed. -/
def integer : Parser (Option Node) := do
  if ← nextIs fun t => t.kind = .integer && maxInteger < integerOf t then
    fail "64-bit integer"
  else
    literal .integer integerLeaf

/-- A quoted value, with the properties that follow it. -/
def quoted : Parser (Option Node) := do
  match ← takeIf (·.kind = .quote) with
  | none => pure none
  | some t =>
    let inner ← nested.propertyOrValue
    pure (some (nodeAt .quoted t [inner]))

/-- An unquoted expression in parentheses. -/
def unquote : Parser (Option Node) := do
  match ← takeIf (·.kind = .unquote) with
  | none => pure none
  | some t =>
    match ← parens nested with
    | none => fail (Text.inQuotes "(")
    | some inner => pure (some (nodeAt .unquote t [inner]))

/-- The parser of a form.  It makes nothing, and consumes nothing, where the form does not apply. -/
def ValueForm.parser : ValueForm → Parser (Option Node)
  | parens => Parser.parens nested
  | block => Parser.block nested
  | identifier => literal .ident (textLeaf .identifier)
  | integer => Parser.integer
  | float => literal .float floatLeaf
  | string => literal .string stringLeaf
  | quoted => Parser.quoted nested
  | unquote => Parser.unquote nested

/-- The first of some parsers that makes something. -/
def firstOf : List (Parser (Option Node)) → Parser (Option Node)
  | [] => pure none
  | p :: ps => do
    match ← p with
    | some node => pure (some node)
    | none => firstOf ps

/-- A value. -/
def value : Parser Node :=
  traced settings.tracing .value do
    match ← firstOf (settings.forms.map (·.parser nested)) with
    | some node => pure node
    | none => fail "value"

/-- A point and the name of a property. -/
def propertyName : Parser Token := do
  let _ ← expectText "."
  expectKind .ident

/-- A value and any number of property accesses. -/
def propertyOrValue : Parser Node :=
  traced settings.tracing .propertyOrValue do
    let base ← value settings nested
    let names ← many (·.text = ".") propertyName
    pure (names.foldl propertyNode base)

/-- An operator that chains to the left, and its right operand. -/
def leftOperand : Parser (Token × Node) := do
  let op ← expectKind .leftOperator
  let rhs ← propertyOrValue settings nested
  pure (op, rhs)

/-- The chain of operators after a first operand, folded strictly from left to right. -/
def leftBinary (lhs : Node) : Parser Node :=
  traced settings.tracing .leftBinary do
    let operands ← many (·.kind = .leftOperator) (leftOperand settings nested)
    pure (operands.foldl (fun node (op, rhs) => binaryNode node op rhs) lhs)

/-- An operand and the chain after it. -/
def chain : Parser Node := do
  leftBinary settings nested (← propertyOrValue settings nested)

/-- An argument of a call, and the comma that may follow it. -/
def argument : Parser Node := do
  let arg ← chain settings nested
  skipText ","
  pure arg

/-- A chain of operators, a call, or a single value. -/
def intermediate : Parser Node :=
  traced settings.tracing .intermediate do
    let first ← propertyOrValue settings nested
    if ← nextIs (·.kind = .leftOperator) then
      leftBinary settings nested first
    else
      let args ← many (!endsCall ·) (argument settings nested)
      pure (callNode first args)

/-- An expression: operators of the other class nest to the right. -/
def expressionRule : Parser Node :=
  traced settings.tracing .expression do
    let lhs ← intermediate settings nested
    match ← takeIf (·.kind = .rightOperator) with
    | none => pure lhs
    | some op =>
      let rhs ← nested.expression
      pure (binaryNode lhs op rhs)

/-! ## Tying the knot -/

/-- The rules for a parse in which `bound` exceeds the number of tokens ahead.  Since a rule uses
another one only after consuming a token, the rules at bound zero are never reached. -/
def grammar : (bound : Nat) → Nested
  | 0 => { expression := fail "value", propertyOrValue := fail "value" }
  | bound + 1 =>
    let inner := grammar bound
    { expression := expressionRule settings inner
      propertyOrValue := propertyOrValue settings inner }

/-- Runs a rule in the grammar. -/
def inGrammar {α : Type} (rule : Nested → Parser α) : Parser α :=
  fun s => rule (grammar settings (s.ahead.length + 1)) s

/-- One expression; what follows it is left ahead. -/
def expression : Parser Node :=
  inGrammar settings (·.expression)

/-- Statements up to the first closing brace that nothing opened; what follows is left ahead. -/
def expressions : Parser Node :=
  traced settings.tracing .expressions do
    return .branch .expressions (← inGrammar settings statements) none

/-- A whole program: every token is consumed. -/
def program : Parser Node :=
  traced settings.tracing .program do
    let body ← inGrammar settings statements
    if ← nextIs fun _ => true then
      fail "end of input"
    else
      pure (.branch .program body none)

end Juxta.Parser
