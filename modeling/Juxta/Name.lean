import Juxta.Node.Number

/-!
# Names

A name in a source is a text.  In a tree built by hand an identifier may hold any payload, so that a
number can be a name as well.  Numbers of the same value are the same name, and no number is the
same name as a text.

## What is here

* `Name` — texts and numbers as names, with one form for each number.
* `Node.Payload.name?` — the name that a payload is.
-/

set_option autoImplicit false
namespace Juxta

/-- A name: a text, an integer, or a number that is not integral, by its bits. -/
inductive Name where
  | text (s : String)
  | whole (n : Int)
  | bits (pattern : UInt64)
deriving DecidableEq, Repr

namespace Name

instance : Coe String Name := ⟨text⟩

/-- The text of a name that is one. -/
def text? : Name → Option String
  | text s => some s
  | _ => none

/-- The name that a floating-point number is.  Not-a-number differs from all names, itself included,
and is none. -/
def ofFloat? (x : Float) : Option Name :=
  match Binary64.ofFloat x with
  | .nan => none
  | b => some ((b.whole?.map whole).getD (bits x.toBits))

end Name

/-- The name that a payload is. -/
def Node.Payload.name? : Node.Payload → Option Name
  | str s => some (.text s)
  | int n => some (.whole n)
  | bool b => some (.whole (Number.ofTruth b))
  | float x => Name.ofFloat? x

end Juxta
