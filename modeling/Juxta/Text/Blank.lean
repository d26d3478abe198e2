/-!
# Blank characters

The white space that separates words in a command line of the interactive session.  It is the
wide, Unicode notion; the language itself knows only spaces, tabs and line ends.

## What is here

* `isBlank` — the 29 characters that count as white space.
* `strip` — a text without the blanks at its two ends.
* `splitFirst` — the first word of a text, and what follows the blanks after it.
-/

set_option autoImplicit false
namespace Juxta.Text

/-- The ranges of code points, both ends included, that count as white space. -/
def blankRanges : List (Nat × Nat) :=
  [(0x09, 0x0D), (0x1C, 0x20), (0x85, 0x85), (0xA0, 0xA0), (0x1680, 0x1680), (0x2000, 0x200A),
    (0x2028, 0x2029), (0x202F, 0x202F), (0x205F, 0x205F), (0x3000, 0x3000)]

/-- White space in the wide sense: control separators, and the spaces of every script. -/
def isBlank (c : Char) : Bool :=
  blankRanges.any fun (low, high) => low ≤ c.toNat && c.toNat ≤ high

/-- The text without the blanks at its two ends. -/
def strip (text : String) : String :=
  String.ofList (((text.toList.dropWhile isBlank).reverse.dropWhile isBlank).reverse)

/-- The characters up to the first blank, and those that follow the run of blanks. -/
def splitFirst (text : String) : String × String :=
  let cs := text.toList
  let word := cs.takeWhile (!isBlank ·)
  (String.ofList word, String.ofList ((cs.drop word.length).dropWhile isBlank))

end Juxta.Text
