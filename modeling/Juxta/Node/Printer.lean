import Juxta.Decimal.Layout
import Juxta.Node.Basic
import Juxta.Text.Quoted
import Juxta.Token.Basic

/-!
# The texts of a tree

## What is here

* `Node.compact` — a tree on one line.
* `Node.outline` — a tree with one node per line, children two spaces deeper than their parent.
* `Node.inspect`, `Token.inspect` — the parts of a node or token, with quoted texts.
-/

set_option autoImplicit false
namespace Juxta

namespace Node

/-- The text of a payload in the language. -/
def Payload.text : Payload → String
  | .int n => toString n
  | .float x => formatFloat x
  | .str s => s
  | .bool b => if b then "true" else "false"

/-- The plain text of a payload, which tells floating-point numbers from integers. -/
def Payload.plain : Payload → String
  | .int n => toString n
  | .float x => inspectFloat x
  | .str s => s
  | .bool b => if b then "True" else "False"

/-- The text of a payload for inspection: texts are quoted. -/
def Payload.inspect : Payload → String
  | .str s => Text.quoted s
  | p => p.plain

/-! ## On one line -/

mutual

/-- A tree on one line, between braces: a kind of leaf is followed by its payload, any other kind by
its children in brackets. -/
def compact : Node → String
  | leaf k p _ =>
    if k.isLeaf then "\x7b" ++ k.name ++ " " ++ p.text ++ "\x7d" else "\x7b" ++ k.name ++ " []\x7d"
  | branch k cs _ =>
    if k.isLeaf then "\x7b" ++ k.name ++ " None\x7d"
    else "\x7b" ++ k.name ++ " [" ++ " ".intercalate (compactAll cs) ++ "]\x7d"

/-- The one-line forms of some trees. -/
def compactAll : List Node → List String
  | [] => []
  | n :: ns => compact n :: compactAll ns

end

/-! ## One node per line -/

/-- Two spaces for each level, and none at a negative depth. -/
def indent (depth : Int) : String :=
  String.ofList (List.replicate (2 * depth.toNat) ' ')

mutual

/-- The lines of a tree whose root stands at the given depth. -/
def outlineLines (depth : Int) : Node → List String
  | leaf k p _ => [indent depth ++ "- " ++ k.name ++ " \x7b Value: \"" ++ p.text ++ "\" \x7d"]
  | branch k cs _ => (indent depth ++ "- " ++ k.name) :: outlineLinesOfAll (depth + 1) cs

/-- The lines of some trees at the same depth. -/
def outlineLinesOfAll (depth : Int) : List Node → List String
  | [] => []
  | n :: ns => outlineLines depth n ++ outlineLinesOfAll depth ns

end

/-- A tree with one node per line; every line ends in a line feed. -/
def outline (depth : Int) (node : Node) : String :=
  String.join ((node.outlineLines depth).map (· ++ "\n"))

/-! ## For inspection -/

mutual

/-- The parts of a node: its kind, and its payload or its children. -/
def inspect : Node → String
  | leaf k p _ => "Node(" ++ Text.quoted k.name ++ ", payload=" ++ p.inspect ++ ")"
  | branch k cs _ =>
    "Node(" ++ Text.quoted k.name ++ ", [" ++ ", ".intercalate (inspectAll cs) ++ "])"

/-- The parts of some nodes. -/
def inspectAll : List Node → List String
  | [] => []
  | n :: ns => inspect n :: inspectAll ns

end

end Node

/-- The parts of a token: its class, its quoted text and its offset. -/
def Token.inspect (t : Token) : String :=
  "Tok(" ++ t.kind.name ++ ", " ++ Text.quoted t.text ++ ", @" ++ toString t.pos ++ ")"

end Juxta
