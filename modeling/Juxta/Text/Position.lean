import Juxta.Text.Newlines

/-!
# Lines and columns

Every offset in this library counts characters from the start of a text, and every diagnostic is
shown to people as a line and a column, both counted from one.  A `Position` is such a pair.  The
position of an offset is found by going through the lines of the text, and the position of a reader
by counting along, one character at a time.

## What is here

* `Position.after p cs` — the position reached from `p` by reading the characters `cs`.
* `Position.ofOffset? text offset` — the position of an offset, when the text is long enough.
-/

set_option autoImplicit false
namespace Juxta

/-- A place in a text as people count it: the first character stands in line 1, column 1.  A column
is an integer because an offset before the text lies on line 1, left of its first column. -/
structure Position where
  line : Nat
  column : Int
deriving DecidableEq, Repr

namespace Position

/-- The position of the first character. -/
def start : Position := ⟨1, 1⟩

/-- The position after one more character.  A line feed belongs to the line that it ends. -/
def next (p : Position) (c : Char) : Position :=
  if c = '\n' then ⟨p.line + 1, 1⟩ else ⟨p.line, p.column + 1⟩

/-- The position after reading `cs` from `p`. -/
def after (p : Position) (cs : List Char) : Position :=
  cs.foldl next p

@[simp] theorem after_nil (p : Position) : p.after [] = p := rfl

@[simp] theorem after_cons (p : Position) (c : Char) (cs : List Char) :
    p.after (c :: cs) = (p.next c).after cs := rfl

@[simp] theorem after_append (p : Position) (cs ds : List Char) :
    p.after (cs ++ ds) = (p.after cs).after ds := by
  simp [after]

/-- The position of an offset in some lines, of which the first has the given number and starts at
the offset `start`.  Each line is one character wider than its text: the line feed behind it belongs
to it. -/
def inLines (offset : Int) : (number start : Nat) → List String → Option Position
  | _, _, [] => none
  | number, start, line :: lines =>
    let width := line.length + 1
    if offset < start + width then some ⟨number, offset - start + 1⟩
    else inLines offset (number + 1) (start + width) lines

/-- The position of an offset in a text, unless it lies beyond all lines. -/
def ofOffset? (text : String) (offset : Int) : Option Position :=
  inLines offset 1 0 (Text.lines text)

/-- The text of the error that an offset lies beyond a text. -/
def outOfRange (offset : Int) : String :=
  s!"offset {offset} is out of range"

end Position
end Juxta
