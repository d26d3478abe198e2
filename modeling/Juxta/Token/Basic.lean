/-!
# Tokens

A token is a piece of source text together with its lexical class and its place.

## What is here

* `Token.Kind` — the twelve lexical classes, in the order in which they are tried.
* `Token` — a class, the text itself, and the offset at which it starts.
-/

set_option autoImplicit false
namespace Juxta

/-- The lexical classes, in the order in which they are tried. -/
inductive Token.Kind where
  | float
  | integer
  | string
  /-- An operator that nests to the right. -/
  | rightOperator
  | quote
  | unquote
  /-- An operator that chains to the left. -/
  | leftOperator
  | punctuation
  | ident
  | newline
  | comment
  | whitespace
deriving DecidableEq, Repr

namespace Token.Kind

/-- All classes in order. -/
def all : List Kind :=
  [float, integer, string, rightOperator, quote, unquote, leftOperator, punctuation, ident, newline,
    comment, whitespace]

theorem mem_all (k : Kind) : k ∈ all := by
  cases k <;> decide

/-- The name of a class in messages. -/
def name : Kind → String
  | float => "FLOAT"
  | integer => "INTEGER"
  | string => "STRING"
  | rightOperator => "ROPERATOR"
  | quote => "QUOTE"
  | unquote => "UNQUOTE"
  | leftOperator => "LOPERATOR"
  | punctuation => "PUNCTUATION"
  | ident => "IDENT"
  | newline => "NEWLINE"
  | comment => "COMMENT"
  | whitespace => "WHITESPACE"

/-- The class with the given name. -/
def ofName? (text : String) : Option Kind :=
  all.find? (·.name == text)

end Token.Kind

/-- A piece of source text with its lexical class and the offset at which it starts.  A token made
by hand may start anywhere, also before the source. -/
structure Token where
  kind : Token.Kind
  text : String
  pos : Int
deriving DecidableEq, Repr

namespace Token

/-- The offset just past the token. -/
def stop (t : Token) : Int :=
  t.pos + t.text.length

end Token
end Juxta
