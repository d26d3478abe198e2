import Juxta.Text.Newlines
import Juxta.Token.Lexer

/-!
# Highlighting

A line is shown as fragments, each a piece of its text with a style.  Tokens and comments have the
style of their group, what lies between them has none, and a line that cannot be cut into tokens to
its end is marked from the first bad character on.

## What is here

* `Highlight.Group` — the groups of tokens, and the style of each.
* `Highlight.line` — the fragments of a line.
* `Highlight.documentLine?` — the fragments of one line of a document.
-/

set_option autoImplicit false
namespace Juxta

/-- A piece of text with a style, which is empty for plain text. -/
structure Fragment where
  style : String
  text : String
deriving DecidableEq, Repr

namespace Highlight

/-- The groups of tokens that look alike. -/
inductive Group where
  | constant
  | builtin
  | number
  | string
  | quote
  | identifier
  | operator
  | assign
  | punctuation
  | comment
  | error
  /-- Neither a token nor a comment. -/
  | plain
deriving DecidableEq, Repr

/-- The style of a group. -/
def Group.style : Group → String
  | constant => "ansicyan"
  | builtin => "bold ansiyellow"
  | number => "ansimagenta"
  | string => "ansigreen"
  | quote => "bold ansiblue"
  | assign => "bold"
  | comment => "italic ansigray"
  | error => "bold ansired"
  | identifier | operator | punctuation | plain => ""

/-- The group of an identifier: the names that a session binds from the start stand out. -/
def identifierGroup (name : String) : Group :=
  if name = "true" || name = "false" then .constant
  else if name = "println" || name = "exit" then .builtin
  else .identifier

/-- The group of a token. -/
def group (t : Token) : Group :=
  match t.kind with
  | .float | .integer => .number
  | .string => .string
  | .rightOperator => .assign
  | .quote | .unquote => .quote
  | .leftOperator => .operator
  | .punctuation => .punctuation
  | .ident => identifierGroup t.text
  | .comment => .comment
  | .newline | .whitespace => .plain

/-- The plain text between two offsets, if there is any. -/
def gap (cs : List Char) (start stop : Nat) : List Fragment :=
  if start < stop then
    [⟨Group.plain.style, String.ofList ((cs.take stop).drop start)⟩]
  else []

/-- The fragments of `cs` from an offset on, up to the offset `stop`: the tokens, and the text
between them. -/
def fragments (cs : List Char) (stop : Nat) : (pos : Nat) → List Token → List Fragment
  | pos, [] => gap cs pos stop
  | pos, t :: ts =>
    gap cs pos t.pos.toNat ++ ⟨(group t).style, t.text⟩ :: fragments cs stop t.stop.toNat ts

/-- The fragments of a line. -/
def line (text : String) : List Fragment :=
  let cs := text.toList
  if cs.isEmpty then [⟨"", ""⟩]
  else
    let scan := Token.scan 0 cs
    let tokens := scan.pieces.filter fun t => t.kind ≠ .newline && t.kind ≠ .whitespace
    match scan.stuck with
    | none => fragments cs cs.length 0 tokens
    | some bad =>
      fragments cs bad 0 tokens ++ [⟨Group.error.style, String.ofList (cs.drop bad)⟩]

/-- The line with a number, counted from zero, or from the end if the number is negative. -/
def numbered? (lines : List String) : (number : Int) → Option String
  | .ofNat i => lines[i]?
  | .negSucc i => lines.reverse[i]?

/-- The fragments of a line of a document, which is cut at its line feeds.  A line after the last is
empty; there is no line in front of the first. -/
def documentLine? (document : String) (number : Int) : Option (List Fragment) :=
  let lines := Text.lines document
  if number < lines.length then (numbered? lines number).map line else some (line "")

end Highlight
end Juxta
