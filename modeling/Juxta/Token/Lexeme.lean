import Juxta.Token.Basic

/-!
# Lexemes

For every lexical class, the piece of text that it takes from the front of the remaining source.
A class that does not apply takes nothing: no class has an empty lexeme.

The string class needs care.  A backslash pairs with the character after it, unless that is a line
feed or the end of the source, and a string ends at the first double quote that is not the second
half of a pair.  When there is no such quote, the string ends at the *last* double quote of the
source, paired or not.

## What is here

* `Token.Kind.lexeme` — what a class takes from the front of a text.
* `Token.firstLexeme` — the class that applies first, in the order of `Token.Kind.all`.  It is the
  first that applies, not the one that takes most.
-/

set_option autoImplicit false
namespace Juxta.Token

/-! ## Character classes -/

/-- The characters of which operators that chain to the left are made. -/
def isOperatorChar (c : Char) : Bool :=
  "+-*/%=<>!&|^".toList.contains c

/-- The characters that are tokens by themselves. -/
def isPunctuation (c : Char) : Bool :=
  ['.', ',', ';', '(', ')', '[', ']', '\x7b', '\x7d'].contains c

/-- The characters that can start an identifier. -/
def isIdentStart (c : Char) : Bool :=
  c.isAlpha || c = '-' || c = '_' || c = '$'

/-- The characters of an identifier after its first. -/
def isIdentChar (c : Char) : Bool :=
  isIdentStart c || c.isDigit

/-- The white space that a line end takes along. -/
def isLayout (c : Char) : Bool :=
  c = '\t' || c = '\n' || c = '\x0c' || c = '\r' || c = ' '

/-- The white space inside a line. -/
def isSpace (c : Char) : Bool :=
  c = ' ' || c = '\t'

/-! ## Lexemes of more than one part -/

/-- Digits, a point, and digits. -/
def floatLexeme (cs : List Char) : List Char :=
  let whole := cs.takeWhile Char.isDigit
  match cs.drop whole.length with
  | '.' :: rest =>
    let places := rest.takeWhile Char.isDigit
    if whole.isEmpty || places.isEmpty then [] else whole ++ '.' :: places
  | _ => []

/-- The text up to and including the first double quote that no backslash pairs with. -/
def throughFreeQuote : List Char → Option (List Char)
  | [] => none
  | '"' :: _ => some ['"']
  | '\\' :: '\n' :: rest => (throughFreeQuote rest).map ('\\' :: '\n' :: ·)
  | '\\' :: c :: rest => (throughFreeQuote rest).map ('\\' :: c :: ·)
  | c :: rest => (throughFreeQuote rest).map (c :: ·)

/-- The text up to and including its last double quote; nothing if there is none. -/
def throughLastQuote (cs : List Char) : List Char :=
  (cs.reverse.dropWhile (· ≠ '"')).reverse

/-- A string: an opening quote, and the text up to the quote that closes it. -/
def stringLexeme : List Char → List Char
  | '"' :: rest =>
    match throughFreeQuote rest with
    | some body => '"' :: body
    | none =>
      match throughLastQuote rest with
      | [] => []
      | body => '"' :: body
  | _ => []

/-- The two operators that nest to the right. -/
def rightOperatorLexeme : List Char → List Char
  | ':' :: '=' :: _ => [':', '=']
  | ':' :: ':' :: _ => [':', ':']
  | _ => []

/-- A first character of one class, and the longest run of another class after it. -/
def runLexeme (first others : Char → Bool) : List Char → List Char
  | [] => []
  | c :: rest => if first c then c :: rest.takeWhile others else []

/-- A single character. -/
def charLexeme (p : Char → Bool) : List Char → List Char
  | c :: _ => if p c then [c] else []
  | [] => []

/-- A dollar sign that stands directly before an opening parenthesis. -/
def unquoteLexeme : List Char → List Char
  | '$' :: '(' :: _ => ['$']
  | _ => []

/-! ## The classes -/

/-- The piece that a class takes from the front of a text; empty if the class does not apply. -/
def Kind.lexeme : Kind → List Char → List Char
  | .float => floatLexeme
  | .integer => List.takeWhile Char.isDigit
  | .string => stringLexeme
  | .rightOperator => rightOperatorLexeme
  | .quote => charLexeme (· = ':')
  | .unquote => unquoteLexeme
  | .leftOperator => List.takeWhile isOperatorChar
  | .punctuation => charLexeme isPunctuation
  | .ident => runLexeme isIdentStart isIdentChar
  | .newline => runLexeme (· = '\n') isLayout
  | .comment => runLexeme (· = '#') (· ≠ '\n')
  | .whitespace => List.takeWhile isSpace

/-- The class that applies first, and its lexeme. -/
def firstLexeme (cs : List Char) : Option (Kind × List Char) :=
  Kind.all.findSome? fun k =>
    match k.lexeme cs with
    | [] => none
    | lexeme => some (k, lexeme)

/-- A chosen lexeme is not empty. -/
theorem ne_nil_of_firstLexeme {cs l : List Char} {k : Kind} (h : firstLexeme cs = some (k, l)) :
    l ≠ [] := by
  obtain ⟨k', -, h'⟩ := List.exists_of_findSome?_eq_some h
  intro hl
  subst hl
  split at h'
  · exact absurd h' (by simp)
  · rename_i h''
    simp only [Option.some.injEq, Prod.mk.injEq] at h'
    exact h'' h'.2

@[simp] theorem firstLexeme_nil : firstLexeme [] = none := rfl

end Juxta.Token
