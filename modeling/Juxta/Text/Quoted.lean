/-!
# Quoted text

Messages show a text as it stands between double quotes.  Where tokens and trees are inspected, a
text has a one-line, printable form: single quotes enclose it, unless it holds a single quote and no
double one, in which case double quotes do.

## What is here

* `Text.inQuotes` — a text between double quotes, nothing escaped.
* `Text.quoted` — the printable form.
-/

set_option autoImplicit false
namespace Juxta.Text

/-- A text between double quotes, as it stands. -/
def inQuotes (text : String) : String :=
  "\"" ++ text ++ "\""

/-- The quote that encloses a text: a single one where possible without an escape. -/
def enclosingQuote (cs : List Char) : Char :=
  if cs.contains '\'' && !cs.contains '"' then '"' else '\''

/-- Two lower-case hexadecimal digits. -/
def hexPair (n : Nat) : List Char :=
  [Nat.digitChar (n / 16 % 16), Nat.digitChar (n % 16)]

/-- One character between the given quotes.  Backslash, the enclosing quote, tab, line feed and
carriage return have escapes of their own; any other control character is written by its code. -/
def escapeChar (quote c : Char) : List Char :=
  if c = '\\' || c = quote then ['\\', c]
  else if c = '\n' then ['\\', 'n']
  else if c = '\t' then ['\\', 't']
  else if c = '\r' then ['\\', 'r']
  else if c.toNat < 0x20 || c.toNat = 0x7F then '\\' :: 'x' :: hexPair c.toNat
  else [c]

/-- The quoted form of a text. -/
def quoted (text : String) : String :=
  let cs := text.toList
  let quote := enclosingQuote cs
  String.ofList (quote :: cs.flatMap (escapeChar quote) ++ [quote])

end Juxta.Text
