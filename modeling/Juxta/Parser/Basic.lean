import Juxta.Parser.Trace
import Juxta.Text.Position

/-!
# Parsers over a token list

A parser reads tokens from a cursor.  It may fail, and when it does the cursor stays where the
failure happened: nothing in this library backtracks.

Parsers look at one token only, the one at the cursor, and they consume it only after looking, so
that no parser can run past the end.

## What is here

* `ParseError` — what was expected, what was found instead, and where.
* `Parser.State` — the cursor between the tokens already read and those ahead.
* `Parser` — a parser; `takeIf`, `expect` and `many` are its building blocks, and `traced` records
  when a rule is entered and left.
-/

set_option autoImplicit false
namespace Juxta

/-! ## Errors -/

/-- What was expected and what was found instead, at which offset, and the position of that offset
once the error has been located in its source. -/
structure ParseError where
  expected : String
  found : String
  offset : Option Int
  position : Option Position := none
deriving DecidableEq, Repr

namespace ParseError

/-- Locates the error in a source, unless it is located already or its offset lies outside. -/
def locate (e : ParseError) (source : String) : ParseError :=
  match e.position, e.offset with
  | none, some offset => { e with position := Position.ofOffset? source offset }
  | _, _ => e

/-- The text of the error, after its position if that is known. -/
def message (e : ParseError) : String :=
  let text := "expected " ++ e.expected ++ " but got " ++ e.found
  match e.position with
  | none => text
  | some p => s!"[{p.line}:{p.column}] " ++ text

end ParseError

/-! ## The cursor -/

/-- A token as messages show it. -/
def Token.describe (t : Token) : String :=
  if t.kind = .newline then "newline" else Text.inQuotes t.text

/-- What a parser has found, or the end of the input. -/
def Parser.describe : Option Token → String
  | none => "end of input"
  | some t => t.describe

/-- The state of a parse: a cursor in the token list, and the trace so far.  The tokens before the
cursor and the records of the trace are kept latest first. -/
structure Parser.State where
  seen : List Token
  ahead : List Token
  depth : Nat
  trace : List Parser.Event
deriving DecidableEq, Repr

namespace Parser.State

/-- The cursor at the start of a token list. -/
def ofTokens (tokens : List Token) : State :=
  { seen := [], ahead := tokens, depth := 0, trace := [] }

/-- The number of tokens before the cursor. -/
def cursor (s : State) : Nat :=
  s.seen.length

/-- The token at the cursor. -/
def current (s : State) : Option Token :=
  s.ahead.head?

/-- Moves the cursor over one token, if there is one. -/
def advance? (s : State) : Option (Token × State) :=
  match s.ahead with
  | [] => none
  | t :: ahead => some (t, { s with seen := t :: s.seen, ahead })

/-- The offset at the cursor: where the next token starts, or where the last one ends. -/
def offset (s : State) : Int :=
  match s.ahead, s.seen with
  | t :: _, _ => t.pos
  | [], t :: _ => t.stop
  | [], [] => 0

/-- The error of a parser that expected something else at the cursor. -/
def error (s : State) (expected : String) : ParseError :=
  { expected, found := Parser.describe s.current, offset := some s.offset }

end Parser.State

/-! ## Parsers -/

/-- A parser of `α`: from a state it makes a result or an error, and in either case a state. -/
abbrev Parser (α : Type) : Type :=
  EStateM ParseError Parser.State α

namespace Parser

variable {α : Type}

/-- Fails at the cursor. -/
def fail (expected : String) : Parser α :=
  fun s => .error (s.error expected) s

/-- Whether there is a token at the cursor that satisfies `p`. -/
def nextIs (p : Token → Bool) : Parser Bool :=
  fun s => .ok (s.current.any p) s

/-- Consumes the token at the cursor if it satisfies `p`. -/
def takeIf (p : Token → Bool) : Parser (Option Token) :=
  fun s =>
    match s.advance? with
    | none => .ok none s
    | some (t, s') => if p t then .ok (some t) s' else .ok none s

/-- Consumes a token that satisfies `p`, and fails if there is none at the cursor. -/
def expect (p : Token → Bool) (expected : String) : Parser Token := do
  match ← takeIf p with
  | some t => pure t
  | none => fail expected

/-- Consumes a token with the given text, whatever its class. -/
def expectText (text : String) : Parser Token :=
  expect (·.text = text) (Text.inQuotes text)

/-- Consumes a token of the given class. -/
def expectKind (kind : Token.Kind) : Parser Token :=
  expect (·.kind = kind) kind.name

/-- Consumes a token with the given text if it stands at the cursor. -/
def skipText (text : String) : Parser Unit := do
  let _ ← takeIf (·.text = text)

/-- Consumes all line ends at the cursor. -/
def skipNewlines : Parser Unit :=
  fun s =>
    let newlines := s.ahead.takeWhile (·.kind = .newline)
    .ok () { s with seen := newlines.reverse ++ s.seen, ahead := s.ahead.drop newlines.length }

/-- Repeats `item` as long as the token at the cursor satisfies `more`, at most `limit` times. -/
def manyUpTo (more : Token → Bool) (item : Parser α) : (limit : Nat) → Parser (List α)
  | 0 => pure []
  | limit + 1 => do
    if ← nextIs more then
      let a ← item
      let rest ← manyUpTo more item limit
      pure (a :: rest)
    else
      pure []

/-- Repeats `item` as long as the token at the cursor satisfies `more`.  An item that consumes a
token cannot be repeated more often than there are tokens ahead, so that this limit is none. -/
def many (more : Token → Bool) (item : Parser α) : Parser (List α) :=
  fun s => manyUpTo more item s.ahead.length s

/-- The state inside a rule that is entered at the cursor. -/
def State.enter (s : State) (rule : Rule) : State :=
  { s with depth := s.depth + 1, trace := .enter s.depth rule (describe s.current) :: s.trace }

/-- The state after a rule is left. -/
def State.exit (s : State) (rule : Rule) : State :=
  { s with depth := s.depth - 1, trace := .exit (s.depth - 1) rule :: s.trace }

/-- Records, if tracing is on, when a rule is entered and when it is left, be it by a failure. -/
def traced (tracing : Bool) (rule : Rule) (p : Parser α) : Parser α :=
  fun s =>
    if tracing then
      match p (s.enter rule) with
      | .ok a s' => .ok a (s'.exit rule)
      | .error e s' => .error e (s'.exit rule)
    else
      p s

end Parser
end Juxta
