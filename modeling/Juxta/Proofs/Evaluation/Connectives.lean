import Juxta.Proofs.Evaluation.Settling

/-!
# Chains of logical operators

A chain of one logical operator evaluates its operands from left to right, up to the first that
decides: for `&&` one that counts as false, for `||` one that does not.  However the chain is
bracketed, this holds for it as a whole.  In a chain that is nested to the left the operand that
decides is the value of an inner node, and every node around finds again that it decides.

## What is here

* `Connective` — the two logical operators.
* `Connective.inOrder` — operands evaluated from left to right, up to the first that decides.
* `Connective.Joins` — the trees that join operands by a logical operator, in any way.
* `Connective.Joins.agree_eval` — they all evaluate to what their operands do in order.
* `Connective.chains_short_circuit` — the same for chains that are nested to one side.
-/

set_option autoImplicit false
namespace Juxta

/-- The logical operators. -/
inductive Connective where
  | and
  | or
deriving DecidableEq, Repr

namespace Connective

variable {c : Connective} {frame : Nat} {env : Environment} {e n : Node} {es fs : List Node}

/-- The symbol of a logical operator. -/
def symbol : Connective → String
  | and => "&&"
  | or => "||"

/-- Whether an operand with this value decides. -/
def decides : Connective → Value → Bool
  | and, v => !v.isTruthy
  | or, v => v.isTruthy

/-- An evaluation that is followed by another one, unless its value decides. -/
def followedBy (c : Connective) (left right : Eval Value) : Eval Value := do
  let v ← left
  if c.decides v then pure v else right

/-- The operands evaluated from left to right, each once.  The first that decides is the result, and
those behind it are not evaluated; if none decides, the result is the last. -/
def inOrder (c : Connective) (frame : Nat) : List Node → Eval Value
  | [] => pure .nil
  | [e] => e.eval frame
  | e :: e' :: es => c.followedBy (e.eval frame) (c.inOrder frame (e' :: es))

/-- The operator between two operands. -/
def join (c : Connective) (place start : Option Int) (lhs rhs : Node) : Node :=
  .branch .binary [lhs, Parser.operatorLeaf c.symbol place, rhs] start

/-- `Joins c es n`: the tree `n` consists of the operands `es`, in order, and of the operator
between them, with parentheses anywhere. -/
inductive Joins (c : Connective) : List Node → Node → Prop
  | operand (e : Node) : Joins c [e] e
  | join {es fs : List Node} {lhs rhs : Node} (place start : Option Int) (hl : Joins c es lhs)
      (hr : Joins c fs rhs) : Joins c (es ++ fs) (c.join place start lhs rhs)
  | group {es : List Node} {n : Node} (start : Option Int) (h : Joins c es n) :
      Joins c es (.branch .parenthesis [n] start)

/-! ## Operands in order -/

/-- What decides within the left side decides for all. -/
theorem followedBy_assoc (x y z : Eval Value) :
    c.followedBy (c.followedBy x y) z = c.followedBy x (c.followedBy y z) := by
  simp only [followedBy, bind_assoc]
  refine bind_congr fun v => ?_
  by_cases hv : c.decides v = true
  · rw [if_pos hv, if_pos hv, pure_bind, if_pos hv]
  · rw [if_neg hv, if_neg hv]

theorem followedBy_agree {P : Machine → Prop} {Q : Value → Prop} {I : Interrupt → Prop}
    {x x' y y' : Eval Value} (hkeeps : Eval.Keeps P Q I x') (hx : Eval.Agree P x x')
    (hy : Eval.Agree P y y') : Eval.Agree P (c.followedBy x y) (c.followedBy x' y') := by
  refine .bind hkeeps hx fun v => ?_
  split
  · exact .refl _ _
  · exact hy

theorem settles_followedBy {x y : Eval Value} (hx : Eval.Settles frame env x)
    (hy : Eval.Settles frame env y) : Eval.Settles frame env (c.followedBy x y) := by
  refine hx.bind fun v _ => ?_
  split
  · exact .pure trivial
  · exact hy

theorem inOrder_cons (h : es ≠ []) :
    c.inOrder frame (e :: es) = c.followedBy (e.eval frame) (c.inOrder frame es) := by
  cases es with
  | nil => exact absurd rfl h
  | cons e' es => rw [inOrder]

theorem inOrder_append (hes : es ≠ []) (hfs : fs ≠ []) :
    c.inOrder frame (es ++ fs) = c.followedBy (c.inOrder frame es) (c.inOrder frame fs) := by
  induction es with
  | nil => exact absurd rfl hes
  | cons e es ih =>
    cases es with
    | nil => exact inOrder_cons hfs
    | cons e' es =>
      have hne : e' :: es ≠ [] := List.cons_ne_nil _ _
      rw [List.cons_append, inOrder_cons (List.append_ne_nil_of_left_ne_nil hne _), ih hne,
        inOrder_cons hne, followedBy_assoc]

theorem settles_inOrder (h : ∀ e ∈ es, e.StandsIn (env.source? frame)) :
    Eval.Settles frame env (c.inOrder frame es) := by
  induction es with
  | nil => exact .pure trivial
  | cons e es ih =>
    obtain ⟨he, hes⟩ := List.forall_mem_cons.1 h
    cases es with
    | nil => exact Node.settles_eval he
    | cons e' es => exact settles_followedBy (Node.settles_eval he) (ih hes)

/-! ## Trees of operands -/

theorem evalBinary_symbol (target : Node) (left right : Eval Value) :
    Node.evalBinary frame c.symbol target left right = c.followedBy left right := by
  cases c with
  | and =>
    rw [Node.evalBinary, if_neg (by decide), if_pos (by decide)]
    refine bind_congr fun v => ?_
    cases hv : v.isTruthy <;> simp [decides, hv]
  | or =>
    rw [Node.evalBinary, if_neg (by decide), if_neg (by decide), if_pos (by decide)]
    rfl

theorem eval_join (place start : Option Int) (lhs rhs : Node) :
    (c.join place start lhs rhs).eval frame =
      Eval.locating frame start (c.followedBy (lhs.eval frame) (rhs.eval frame)) := by
  have hop : (Parser.operatorLeaf c.symbol place).leafValue .operator = .ok (.str c.symbol) := rfl
  rw [join, Node.eval_binary hop]
  exact congrArg _ (evalBinary_symbol _ _ _)

theorem Joins.ne_nil (h : Joins c es n) : es ≠ [] := by
  induction h with
  | operand => exact List.cons_ne_nil _ _
  | join _ _ _ _ ih => exact List.append_ne_nil_of_left_ne_nil ih _
  | group _ _ ih => exact ih

/-- **However operands are joined, they are evaluated in order**, if they stand in the source. -/
theorem Joins.agree_eval (h : Joins c es n) (hes : ∀ e ∈ es, e.StandsIn (env.source? frame)) :
    Eval.Agree (Machine.HasSourcesOf env) (n.eval frame) (c.inOrder frame es) := by
  have hsettles : Eval.Settles frame env (c.inOrder frame es) := settles_inOrder hes
  induction h with
  | operand e => exact .refl _ _
  | @join es fs lhs rhs place start hl hr ihl ihr =>
    obtain ⟨hes, hfs⟩ := List.forall_mem_append.1 hes
    have hsame := followedBy_agree (c := c) (settles_inOrder hes)
      (ihl hes (settles_inOrder hes)) (ihr hfs (settles_inOrder hfs))
    rw [← inOrder_append hl.ne_nil hr.ne_nil] at hsame
    -- A logical operator raises nothing itself, and the operands have given their failures places.
    rw [eval_join]
    exact .trans (.locating frame start hsame) (hsettles.agree_locating start)
  | group start h ih =>
    rw [Node.eval]
    exact .trans (.locating frame start (ih hes hsettles)) (hsettles.agree_locating start)

/-! ## Chains that are nested to one side -/

/-- An operand of a chain with the operator in front of it: where the operator stands, and where the
tree starts that it makes. -/
structure Link where
  place : Option Int
  start : Option Int
  operand : Node

/-- The chain that is nested to the left: each operator has all operands before it on its left. -/
def leftNested (c : Connective) (first : Node) (links : List Link) : Node :=
  links.foldl (fun lhs link => c.join link.place link.start lhs link.operand) first

/-- The chain that is nested to the right: each operator has all operands behind it on its right. -/
def rightNested (c : Connective) (first : Node) : List Link → Node
  | [] => first
  | link :: links =>
    c.join link.place link.start first (rightNested c link.operand links)

theorem joins_leftNested (links : List Link) (h : Joins c es n) :
    Joins c (es ++ links.map (·.operand)) (c.leftNested n links) := by
  induction links generalizing es n with
  | nil => rwa [List.map_nil, List.append_nil]
  | cons link links ih =>
    have hjoin := ih (.join link.place link.start h (.operand link.operand))
    rwa [List.append_assoc] at hjoin

theorem joins_rightNested (links : List Link) (first : Node) :
    Joins c (first :: links.map (·.operand)) (c.rightNested first links) := by
  induction links generalizing first with
  | nil => exact .operand first
  | cons link links ih => exact .join link.place link.start (.operand first) (ih link.operand)

/-- Once the value of a chain decides, no operand that is added to it is evaluated. -/
theorem eval_leftNested_of_decides {m m' : Machine} {v : Value}
    (h : n.eval frame m = .ok v m') (hv : c.decides v = true) (links : List Link) :
    (c.leftNested n links).eval frame m = .ok v m' := by
  induction links generalizing n with
  | nil => exact h
  | cons link links ih =>
    refine ih ?_
    rw [eval_join, Eval.locating, followedBy, Eval.bind_of_ok h, if_pos hv]
    rfl

/-- Only false and nil decide a chain of `&&`, and all other values a chain of `||`. -/
theorem decides_iff (v : Value) :
    (and.decides v = true ↔ v = .bool false ∨ v = .nil) ∧
      (or.decides v = true ↔ ¬(v = .bool false ∨ v = .nil)) := by
  cases v <;> simp [decides, Value.isTruthy]

/-- **Chains of a logical operator short-circuit as a whole.**  If all operands start in the source
of the frame, then a chain that is nested to the left does what its operands do in order, up to the
first that decides: it has the same value, failure or exit code, and leaves the same machine.  So
does the chain that is nested to the right, and every other way to join them.  Once the value of a
chain decides, nothing that is added to it is evaluated.  Only false and nil decide for `&&`, and
only they do not decide for `||`. -/
theorem chains_short_circuit (c : Connective) (frame : Nat) (m : Machine) (first : Node)
    (links : List Link)
    (hstands : ∀ e ∈ first :: links.map (·.operand), e.StandsIn (m.env.source? frame)) :
    let operands := first :: links.map (·.operand)
    (c.leftNested first links).eval frame m = c.inOrder frame operands m ∧
      (c.rightNested first links).eval frame m = c.inOrder frame operands m ∧
      (∀ n, Joins c operands n → n.eval frame m = c.inOrder frame operands m) ∧
      (∀ v m' more, (c.leftNested first links).eval frame m = .ok v m' → c.decides v = true →
        (c.leftNested first (links ++ more)).eval frame m = .ok v m') ∧
      ∀ v, (and.decides v = true ↔ v = .bool false ∨ v = .nil) ∧
        (or.decides v = true ↔ ¬(v = .bool false ∨ v = .nil)) := by
  intro operands
  have hall (n : Node) (h : Joins c operands n) : n.eval frame m = c.inOrder frame operands m :=
    h.agree_eval hstands m fun _ => rfl
  refine ⟨hall _ (joins_leftNested links (.operand first)), hall _ (joins_rightNested links first),
    hall, fun v m' more h hv => ?_, decides_iff⟩
  rw [leftNested, List.foldl_append]
  exact eval_leftNested_of_decides h hv more

/-- The last operand is unbound, but the one before it decides. -/
theorem chains_short_circuit_unbound :
    let source := "true && false && nope"
    let m : Machine := .ofEnvironment (Builtins.standard.environment (some source))
    let name (text : String) (start : Int) : Node := .leaf .identifier (.str text) (some start)
    let first := name "true" 0
    let links : List Link := [⟨some 5, some 0, name "false" 8⟩, ⟨some 14, some 0, name "nope" 17⟩]
    (∀ e ∈ first :: links.map (·.operand), e.StandsIn (m.env.source? 0)) ∧
      (Parser.parse .expression source).toOption.map (fun n => (n.compact, n.starts)) =
        some ((and.leftNested first links).compact, (and.leftNested first links).starts) ∧
      (and.leftNested first links).eval 0 m = .ok (.bool false) m ∧
      (and.rightNested first links).eval 0 m = .ok (.bool false) m := by
  intro source m name first links
  have hstand (text : String) {start : Int} (h : (Position.ofOffset? source start).isSome = true) :
      (name text start).StandsIn (m.env.source? 0) := by
    rintro _ ⟨⟩
    exact ⟨start, rfl, h⟩
  have hstands : ∀ e ∈ first :: links.map (·.operand), e.StandsIn (m.env.source? 0) :=
    List.forall_mem_cons.2 ⟨hstand "true" (by decide), List.forall_mem_cons.2
      ⟨hstand "false" (by decide), List.forall_mem_singleton.2 (hstand "nope" (by decide))⟩⟩
  obtain ⟨hleft, hright, -⟩ := chains_short_circuit and 0 m first links hstands
  have hdecided : (and.leftNested first links).eval 0 m = .ok (.bool false) m := rfl
  exact ⟨hstands, by decide +kernel, hdecided, hright.trans (hleft.symm.trans hdecided)⟩

end Connective
end Juxta
