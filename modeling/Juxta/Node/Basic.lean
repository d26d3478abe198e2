/-!
# Syntax trees

A tree node has a kind, and either children or the payload of a leaf, and perhaps the offset at
which its text starts.  The parser makes only some of these trees; the type holds all that a caller
may build by hand, and the evaluator accepts them all.

## What is here

* `Node.Kind` — the kinds of nodes, and which of them are kinds of leaves.
* `Node.Payload` — what a leaf holds.
* `Node` — the trees, with the checked constructor `Node.make`.
* `Node.starts`, `Node.containsKind`, `Node.leafValue` — questions about a tree.
-/

set_option autoImplicit false
namespace Juxta

/-- The kinds of nodes.  A tree built by hand may use names that the language does not know. -/
inductive Node.Kind where
  | program
  | expressions
  | functionCall
  | binary
  | quoted
  | unquote
  | propertyAccess
  | parenthesis
  | identifier
  | block
  | integer
  | float
  | string
  | operator
  | other (name : String)
deriving DecidableEq, Repr

namespace Node.Kind

/-- The kinds that the language knows. -/
def known : List Kind :=
  [program, expressions, functionCall, binary, quoted, unquote, propertyAccess, parenthesis,
    identifier, block, integer, float, string, operator]

/-- The name of a kind in dumps and messages. -/
def name : Kind → String
  | program => "Program"
  | expressions => "Expressions"
  | functionCall => "FunctionCall"
  | binary => "Binary"
  | quoted => "Quoted"
  | unquote => "Unquote"
  | propertyAccess => "PropertyAccess"
  | parenthesis => "Parenthesis"
  | identifier => "Identifier"
  | block => "Block"
  | integer => "Integer"
  | float => "Float"
  | string => "String"
  | operator => "Operator"
  | other name => name

/-- The kind with the given name. -/
def ofName (text : String) : Kind :=
  (known.find? (·.name == text)).getD (other text)

/-- The five kinds that hold a payload in the trees of the parser. -/
def isLeaf : Kind → Bool
  | identifier | integer | float | string | operator => true
  | _ => false

end Node.Kind

/-- What a leaf holds. -/
inductive Node.Payload where
  | int (n : Int)
  | float (x : Float)
  | str (s : String)
  | bool (b : Bool)

/-- A syntax tree.  A node without children and without payload is a branch with no children. -/
inductive Node where
  | leaf (kind : Node.Kind) (payload : Node.Payload) (start : Option Int)
  | branch (kind : Node.Kind) (children : List Node) (start : Option Int)

namespace Node

/-- The kind of a node. -/
def kind : Node → Kind
  | leaf k _ _ | branch k _ _ => k

/-- The offset at which the text of a node starts, if it has one. -/
def start : Node → Option Int
  | leaf _ _ s | branch _ _ s => s

/-- The payload of a leaf. -/
def payload? : Node → Option Payload
  | leaf _ p _ => some p
  | branch _ _ _ => none

/-- The children of a node; a leaf has none. -/
def children : Node → List Node
  | leaf _ _ _ => []
  | branch _ cs _ => cs

/-! ## Defects of trees built by hand -/

/-- What can be wrong with a tree. -/
inductive Defect where
  /-- A node of this kind was given children and a payload. -/
  | childrenAndPayload (kind : Kind)
  /-- A leaf of the first kind was wanted. -/
  | notLeaf (wanted found : Kind)
  /-- An operator does not have three children, but this many. -/
  | operandCount (found : Nat)
  /-- A call has no callee. -/
  | noCallee
  /-- There is nothing in parentheses. -/
  | emptyParentheses
deriving DecidableEq, Repr

/-- The text of a defect. -/
def Defect.message : Defect → String
  | childrenAndPayload k => k.name ++ " node cannot have both children and a payload"
  | notLeaf wanted found => "expected " ++ wanted.name ++ " leaf, got " ++ found.name
  | operandCount found =>
    if 3 < found then "too many values to unpack (expected 3)"
    else "not enough values to unpack (expected 3, got " ++ toString found ++ ")"
  | noCallee => "not enough values to unpack (expected at least 1, got 0)"
  | emptyParentheses => "list index out of range"

/-- The node with the given parts.  It cannot have both children and a payload. -/
def make (kind : Kind) (children : List Node) (payload : Option Payload) (start : Option Int) :
    Except Defect Node :=
  match children, payload with
  | cs, none => .ok (branch kind cs start)
  | [], some p => .ok (leaf kind p start)
  | _ :: _, some _ => .error (.childrenAndPayload kind)

/-- The payload of a leaf of the given kind. -/
def leafValue (node : Node) (wanted : Kind) : Except Defect Payload :=
  match node with
  | leaf k p _ => if k = wanted then .ok p else .error (.notLeaf wanted k)
  | branch k _ _ => .error (.notLeaf wanted k)

/-! ## Questions about whole trees -/

mutual

/-- All nodes of a tree, each before its children. -/
def subtrees : Node → List Node
  | leaf k p s => [leaf k p s]
  | branch k cs s => branch k cs s :: subtreesOfAll cs

/-- All nodes of some trees, in order. -/
def subtreesOfAll : List Node → List Node
  | [] => []
  | n :: ns => subtrees n ++ subtreesOfAll ns

end

/-- The start offsets of all nodes, each before those of its children. -/
def starts (node : Node) : List (Option Int) :=
  node.subtrees.map start

/-- Whether the node or one below it is of the given kind. -/
def containsKind (node : Node) (k : Kind) : Bool :=
  node.subtrees.any (·.kind = k)

end Node
end Juxta
