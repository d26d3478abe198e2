import Juxta.Parser.Grammar
import Juxta.Token.Lexer

/-!
# Parsing source text

## What is here

* `Parser.Mode` — the three things that a source can be parsed as.
* `Parser.parseTokens` — the tree of a token list, and the state in which the parse ended.
* `Parser.parseSource` — the tree of a source.  A parse error is located in that source.
-/

set_option autoImplicit false
namespace Juxta
namespace Parser

/-- What a source is parsed as. -/
inductive Mode where
  /-- Statements that make up the whole source. -/
  | program
  /-- A single expression; what follows it is ignored. -/
  | expression
  /-- Statements; what follows an unmatched closing brace is ignored. -/
  | expressions
deriving DecidableEq, Repr

namespace Mode

/-- The name of a mode. -/
def name : Mode → String
  | program => "program"
  | expression => "expression"
  | expressions => "expressions"

/-- The mode with the given name, or the text of an error. -/
def ofName (text : String) : Except String Mode :=
  match [program, expression, expressions].find? (·.name == text) with
  | some mode => .ok mode
  | none => .error ("unknown parse mode " ++ Text.quoted text)

/-- The rule that a mode starts with. -/
def rule (settings : Settings) : Mode → Parser Node
  | program => Parser.program settings
  | expression => Parser.expression settings
  | expressions => Parser.expressions settings

end Mode

/-- Parses a token list from its start. -/
def parseTokens (settings : Settings) (mode : Mode) (tokens : List Token) :
    EStateM.Result ParseError State Node :=
  mode.rule settings (State.ofTokens tokens)

end Parser

/-- Why a source has no tree. -/
inductive SourceError where
  | lex (error : LexError)
  | parse (error : ParseError)
deriving DecidableEq, Repr

/-- The text of the error. -/
def SourceError.message : SourceError → String
  | lex e => e.message
  | parse e => e.message

namespace Parser

/-- The outcome of parsing a source: its tree or an error, and the trace of the parse, in order. -/
structure Parsed where
  tree : Except SourceError Node
  trace : List Event

/-- Parses a source.  A parse error is located in it. -/
def parseSource (settings : Settings) (mode : Mode) (source : String) : Parsed :=
  match Token.tokenize source with
  | .error e => ⟨.error (.lex e), []⟩
  | .ok tokens =>
    match parseTokens settings mode tokens with
    | .ok node s => ⟨.ok node, s.trace.reverse⟩
    | .error e s => ⟨.error (.parse (e.locate source)), s.trace.reverse⟩

/-- The tree of a source, without a trace. -/
def parse (mode : Mode) (source : String) : Except SourceError Node :=
  (parseSource .standard mode source).tree

end Parser
end Juxta
