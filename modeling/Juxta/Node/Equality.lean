import Juxta.Node.Number

/-!
# Equality of trees

Two trees are equal when their kinds, payloads and children are; where they start does not matter.
Payloads compare as numbers across their types: an integer equals the floating-point number of the
same value, and a truth value equals 0 or 1.  In particular zero equals minus zero, and nothing
equals not-a-number.

## What is here

* `Node.Payload.equal`, `Node.equal` — the comparison.
* `Node.comparisons` — all comparisons among some trees; `Node.distinct` — how many differ.
-/

set_option autoImplicit false
namespace Juxta.Node

/-- Whether two payloads are the same text or the same number. -/
def Payload.equal : Payload → Payload → Bool
  | .str s, .str t => s = t
  | p, q =>
    match p.number?, q.number? with
    | some a, some b => a.equal b
    | _, _ => false

mutual

/-- Whether two trees are equal up to where they start. -/
def equal : Node → Node → Bool
  | leaf k p _, leaf k' p' _ => k = k' && p.equal p'
  | branch k cs _, branch k' cs' _ => k = k' && equalAll cs cs'
  | _, _ => false

/-- Whether two lists hold equal trees in the same order. -/
def equalAll : List Node → List Node → Bool
  | [], [] => true
  | n :: ns, n' :: ns' => equal n n' && equalAll ns ns'
  | _, _ => false

end

/-- Whether a tree equals itself: only one whose own payload is not a number does not, since the
children of a tree are the very same as its own. -/
def equalsItself (node : Node) : Bool :=
  match node.payload? with
  | some p => p.equal p
  | none => true

/-- Whether two trees that may be missing are equal. -/
def equal? : Option Node → Option Node → Bool
  | none, none => true
  | some n, some n' => equal n n'
  | _, _ => false

/-- The comparison of every tree with every tree, itself included. -/
def comparisons (nodes : List (Option Node)) : List (List Bool) :=
  nodes.zipIdx.map fun (a, i) =>
    nodes.zipIdx.map fun (b, j) =>
      if i = j then a.all equalsItself else equal? a b

/-- How many trees there are when equal ones count once. -/
def distinct (nodes : List (Option Node)) : Nat :=
  (nodes.foldl (fun found n => if found.any (equal? · n) then found else n :: found) []).length

end Juxta.Node
