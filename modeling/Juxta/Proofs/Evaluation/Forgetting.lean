import Juxta.Proofs.Evaluation.FailingPath

/-!
# Evaluating without places

Places have no influence on an evaluation.  To evaluate a tree and then to forget all places, those
in the values, in the environment and of a failure, is to forget the places first and then to
evaluate.  In particular, two trees that differ in their places only are evaluated alike in all that
the language can see.

## What is here

* `Interrupt.unplaced`, `Machine.unplaced`, `Eval.unplacedOutcome` — everything but the places.
* `Operator.literal?_of_apply` — what an operator makes is a literal, which has no places.
* `Eval.Forgets g x y` — the computation `y` does without places what `x` does with them, with one
  rule for each operation of the evaluator.
* `Node.eval_forgets` — evaluating a tree and forgetting places commute.
-/

set_option autoImplicit false
namespace Juxta

/-! ## What remains of an evaluation -/

/-- The same interrupt, without places. -/
def Interrupt.unplaced : Interrupt → Interrupt
  | failure f => failure (.ofCause f.cause.unplaced)
  | exit code => exit code
  | defect d => defect d

/-- The same machine, without places and sources. -/
def Machine.unplaced (m : Machine) : Machine :=
  ⟨m.env.unplaced, m.printed.map (List.map Value.unplaced)⟩

/-- The same outcome, without places: `g` says what remains of a value. -/
def Eval.unplacedOutcome {α β : Type} (g : α → β) :
    EStateM.Result Interrupt Machine α → EStateM.Result Interrupt Machine β
  | .ok a m => .ok (g a) m.unplaced
  | .error i m => .error i.unplaced m.unplaced

/-! ## Values -/

theorem Value.unplaced_of_literal? {v : Value} (h : v.literal?.isSome = true) : v.unplaced = v := by
  cases v with
  | quoted => cases h
  | _ => rfl

namespace Operator

variable {op : Operator} {v : Value}

theorem literal?_of_onContents? {l r : Node.Payload} {type : LiteralType}
    (h : op.onContents? l r type = some (.ok v)) : v.literal?.isSome = true := by
  cases type with
  | int =>
    simp only [onContents?, onIntContents?] at h
    split at h
    · cases h
    · split at h
      · obtain ⟨n, rfl⟩ := onInts_map_eq_ok (Option.some.inj h)
        rfl
      · cases h
        rfl
      · cases h
  | float =>
    simp only [onContents?] at h
    split at h
    · cases h
      rfl
    · obtain ⟨content, -, hv⟩ := Option.map_eq_some_iff.1 h
      obtain rfl := Except.ok.inj hv
      rw [Value.literal?_ofLiteral]
      rfl
  | str =>
    simp only [onContents?] at h
    split at h
    · obtain ⟨content, -, hv⟩ := Option.map_eq_some_iff.1 h
      obtain rfl := Except.ok.inj hv
      rw [Value.literal?_ofLiteral]
      rfl
    · cases h

/-- What an operator makes is a literal, never a quoted tree. -/
theorem literal?_of_apply {l r : Value} (h : op.apply l r = .ok v) : v.literal?.isSome = true := by
  rw [apply.eq_def] at h
  split at h
  · obtain ⟨n, rfl⟩ := onInts_map_eq_ok h
    rfl
  · cases h
    rfl
  · split at h
    · cases h
      rfl
    · cases h
  · cases hliterals : op.onLiterals? l r with
    | none =>
      rw [hliterals] at h
      cases h
    | some result =>
      rw [hliterals, Option.getD_some] at h
      subst h
      obtain ⟨type, p, q, -, -, hcontents⟩ := onLiterals?_eq_some hliterals
      exact literal?_of_onContents? hcontents

end Operator

theorem literal?_of_applyOperator {symbol : String} {l r v : Value}
    (h : applyOperator symbol l r = .ok v) : v.literal?.isSome = true := by
  rw [applyOperator] at h
  split at h
  · exact Operator.literal?_of_apply h
  · cases h

/-! ## Forgetting -/

namespace Eval

variable {α β γ δ : Type} {g : α → β} {g' : γ → δ} {x : Eval α} {y : Eval β} {frame : Nat}

/-- The computation `y` does without places what `x` does with them: `g` says what remains of a
value. -/
def Forgets (g : α → β) (x : Eval α) (y : Eval β) : Prop :=
  ∀ m : Machine, y m.unplaced = unplacedOutcome g (x m)

namespace Forgets

theorem pure {a : α} {b : β} (h : g a = b) : Forgets g (Pure.pure a) (Pure.pure b) := by
  subst h
  exact fun _ => rfl

theorem bind {f : α → Eval γ} {f' : β → Eval δ} (h : Forgets g x y)
    (hf : ∀ a, Forgets g' (f a) (f' (g a))) : Forgets g' (x >>= f) (y >>= f') := by
  intro m
  cases hx : x m with
  | ok a m₁ =>
    rw [bind_of_ok hx, bind_of_ok ((h m).trans (congrArg _ hx)), hf a m₁]
  | error i m₁ =>
    rw [bind_of_error hx, bind_of_error ((h m).trans (congrArg _ hx))]
    rfl

theorem throw (i : Interrupt) : Forgets g (MonadExcept.throw i) (MonadExcept.throw i.unplaced) :=
  fun _ => rfl

theorem fail (cause : Cause) : Forgets g (Eval.fail cause) (Eval.fail cause.unplaced) :=
  fun _ => rfl

/-- The place that a failure gets is forgotten. -/
theorem locating (h : Forgets g x y) (start : Option Int) :
    Forgets g (Eval.locating frame start x) (Eval.locating frame none y) := by
  intro m
  rw [locating_none, h m, Eval.locating]
  split
  · next f m' hx =>
    rw [hx, unplacedOutcome, unplacedOutcome, Interrupt.unplaced, Interrupt.unplaced,
      Failure.cause_locate]
  · rfl

/-! ## Operations of the evaluator -/

theorem lookup (p : Node.Payload) :
    Forgets Value.unplaced (Eval.lookup frame p) (Eval.lookup frame p) := by
  intro m
  have hget : p.name?.bind (m.unplaced.env.get? frame) =
      (p.name?.bind (m.env.get? frame)).map Value.unplaced := by
    cases p.name? with
    | none => rfl
    | some name => exact m.env.get?_unplaced frame name
  rw [lookup_apply, lookup_apply, hget]
  cases p.name?.bind (m.env.get? frame) with
  | none => rfl
  | some v => rfl

theorem define (p : Node.Payload) (v : Value) :
    Forgets id (Eval.define frame p v) (Eval.define frame p v.unplaced) := by
  intro m
  rw [Eval.define, Eval.define]
  cases p.name? with
  | none => rfl
  | some name =>
    show EStateM.Result.ok () _ = EStateM.Result.ok () _
    rw [Machine.unplaced, Machine.unplaced, Environment.define_unplaced]

theorem printLine (vs : List Value) :
    Forgets id (Eval.printLine vs) (Eval.printLine (vs.map Value.unplaced)) :=
  fun _ => rfl

/-- Operators make literals and fail for causes without values, so that there is nothing to
forget. -/
theorem applyOperator (symbol : String) (l r : Value) :
    Forgets Value.unplaced (Eval.ofResult (Juxta.applyOperator symbol l r))
      (Eval.ofResult (Juxta.applyOperator symbol l.unplaced r.unplaced)) := by
  rw [applyOperator_unplaced]
  cases hresult : Juxta.applyOperator symbol l r with
  | ok v => exact pure (Value.unplaced_of_literal? (literal?_of_applyOperator hresult))
  | error cause =>
    rcases applyOperator_eq_error hresult with rfl | rfl
    · exact fail _
    · exact fail _

theorem asNative (v : Value) :
    Forgets id (Eval.ofResult v.asNative) (Eval.ofResult v.unplaced.asNative) := by
  cases v with
  | native f => exact pure rfl
  | _ => exact fail _

theorem action (name : String) (vs : List Value) (action : Action) :
    Forgets Value.unplaced (action.run name vs) (action.run name (vs.map Value.unplaced)) := by
  cases action with
  | printLine => exact (printLine vs).bind fun _ => pure rfl
  | quit =>
    match vs with
    | [] => exact fail _
    | [v] =>
      simp only [Action.run, List.map_cons, List.map_nil, Value.literal?_unplaced,
        Value.type_unplaced]
      split
      · exact throw _
      · exact fail _
    | _ :: _ :: vs =>
      simp only [Action.run, List.map_cons, List.length_cons, List.length_map]
      exact fail _
  | nothing => exact pure rfl
  | foreign shown => exact fail _
  | count =>
    simp only [Action.run, List.length_map]
    exact pure rfl
  | typeOfFirst =>
    cases vs with
    | nil => exact pure rfl
    | cons v vs =>
      simp only [Action.run, List.map_cons, List.head?_cons, Option.map_some, Value.type_unplaced]
      exact pure rfl
  | last => exact pure (Value.unplaced_getLast vs)

theorem call (f : Native) (vs : List Value) :
    Forgets Value.unplaced (f.call vs) (f.call (vs.map Value.unplaced)) := by
  rw [Native.call, Native.call, List.length_map]
  split
  · split
    · exact action f.name vs f.action
    · exact fail _
  · exact action f.name vs f.action

theorem evalLeaf (kind : Node.Kind) (payload : Node.Payload) (start : Option Int) :
    Forgets Value.unplaced (Node.evalLeaf frame kind payload start)
      (Node.evalLeaf frame kind payload none) := by
  have hliteral (type : LiteralType) :
      Forgets Value.unplaced (Pure.pure (Value.ofLiteral type payload))
        (Pure.pure (Value.ofLiteral type payload)) := by
    refine pure (Value.unplaced_of_literal? ?_)
    rw [Value.literal?_ofLiteral]
    rfl
  cases kind with
  | identifier => exact lookup payload
  | integer | float | string => exact hliteral _
  | program | expressions => exact pure rfl
  | quoted => exact pure rfl
  | functionCall | binary | parenthesis => exact throw _
  | block | propertyAccess | unquote | operator | other => exact fail _

theorem assignmentTarget (target : Node) :
    Forgets id (Node.assignmentTarget target) (Node.assignmentTarget target.unplaced) := by
  cases target with
  | leaf k p s =>
    cases k with
    | identifier => exact pure rfl
    | _ => exact fail _
  | branch k cs s =>
    cases k with
    | identifier => exact throw _
    | _ => exact fail _

theorem operatorSymbol (operator : Node) :
    Forgets id (Node.operatorSymbol operator) (Node.operatorSymbol operator.unplaced) := by
  have hleaf : operator.unplaced.leafValue .operator = operator.leafValue .operator := by
    cases operator with
    | leaf => rfl
    | branch => rfl
  rw [Node.operatorSymbol, Node.operatorSymbol, hleaf]
  cases operator.leafValue .operator with
  | ok p => exact pure rfl
  | error d => exact throw _

theorem evalBinary {left left' right right' : Eval Value} (hl : Forgets Value.unplaced left left')
    (hr : Forgets Value.unplaced right right') (symbol : String) (target : Node) :
    Forgets Value.unplaced (Node.evalBinary frame symbol target left right)
      (Node.evalBinary frame symbol target.unplaced left' right') := by
  rw [Node.evalBinary, Node.evalBinary]
  split
  · exact (assignmentTarget target).bind fun p => hr.bind fun v => (define p v).bind fun _ =>
      pure rfl
  · split
    · refine hl.bind fun v => ?_
      rw [Value.isTruthy_unplaced]
      split
      · exact hr
      · exact pure rfl
    · split
      · refine hl.bind fun v => ?_
        rw [Value.isTruthy_unplaced]
        split
        · exact pure rfl
        · exact hr
      · exact hl.bind fun v => hr.bind fun w => applyOperator symbol v w

end Forgets
end Eval

/-! ## Trees -/

namespace Node

open Eval (Forgets)

theorem unplacedAll_eq_map (ns : List Node) : unplacedAll ns = ns.map unplaced := by
  induction ns with
  | nil => rfl
  | cons n ns ih => rw [unplacedAll, ih, List.map_cons]

mutual

/-- **Evaluating a tree and forgetting places commute.** -/
theorem eval_forgets (frame : Nat) :
    ∀ n : Node, Forgets Value.unplaced (n.eval frame) (n.unplaced.eval frame)
  | leaf kind payload start => by
    rw [unplaced, eval, eval]
    exact (Forgets.evalLeaf kind payload start).locating start
  | branch kind children start => by
    rw [unplaced]
    cases kind with
    | program =>
      rw [eval, eval]
      refine ((evalAll_forgets frame children).bind fun vs => ?_).locating start
      exact .pure rfl
    | expressions =>
      rw [eval, eval]
      refine ((evalAll_forgets frame children).bind fun vs => ?_).locating start
      exact .pure (Value.unplaced_getLast vs)
    | functionCall =>
      cases children with
      | nil =>
        rw [unplacedAll, eval, eval]
        exact (Forgets.throw _).locating start
      | cons callee args =>
        rw [unplacedAll, eval, eval]
        exact ((eval_forgets frame callee).bind fun v => (Forgets.asNative v).bind fun f =>
          (evalAll_forgets frame args).bind fun vs => .call f vs).locating start
    | binary =>
      rcases children with _ | ⟨lhs, _ | ⟨op, _ | ⟨rhs, _ | ⟨extra, rest⟩⟩⟩⟩
      case cons.cons.cons.nil =>
        simp only [unplacedAll]
        rw [eval, eval]
        refine ((Forgets.operatorSymbol op).bind fun symbol => ?_).locating start
        exact .evalBinary (eval_forgets frame lhs) (eval_forgets frame rhs) symbol lhs
      all_goals
        rw [unplacedAll_eq_map, eval_binary_of_length_ne (by simp),
          eval_binary_of_length_ne (by simp), List.length_map]
        exact (Forgets.throw _).locating start
    | quoted =>
      rw [eval, eval]
      exact (Forgets.pure rfl).locating start
    | parenthesis =>
      cases children with
      | nil =>
        rw [unplacedAll, eval, eval]
        exact (Forgets.throw _).locating start
      | cons inner rest =>
        rw [unplacedAll, eval, eval]
        exact (eval_forgets frame inner).locating start
    | identifier | integer | float | string =>
      rw [eval, eval]
      exact (Forgets.throw _).locating start
    | block | propertyAccess | unquote | operator | other name =>
      rw [eval, eval]
      exact (Forgets.fail _).locating start

theorem evalAll_forgets (frame : Nat) : ∀ ns : List Node,
    Forgets (List.map Value.unplaced) (evalAll frame ns) (evalAll frame (unplacedAll ns))
  | [] => by
    rw [unplacedAll, evalAll]
    exact .pure rfl
  | n :: ns => by
    rw [unplacedAll, evalAll, evalAll]
    exact (eval_forgets frame n).bind fun v => (evalAll_forgets frame ns).bind fun vs =>
      .pure rfl

end

/-- **Trees that differ in their places only are evaluated alike.** -/
theorem unplacedOutcome_eval {n n' : Node} (h : n.unplaced = n'.unplaced) {m m' : Machine}
    (hm : m.unplaced = m'.unplaced) (frame : Nat) :
    Eval.unplacedOutcome Value.unplaced (n.eval frame m) =
      Eval.unplacedOutcome Value.unplaced (n'.eval frame m') := by
  rw [← n.eval_forgets frame m, ← n'.eval_forgets frame m', h, hm]

end Node
end Juxta
