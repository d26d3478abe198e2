import Juxta.Proofs.Evaluation.FailingPath
import Juxta.Run

/-!
# Evaluation with the functions of a host

The evaluator knows the functions of the host by what they do.  Much of what can be said about
evaluations does not depend on that: here a host is given by its functions, which may do anything to
the machine, and trees are evaluated with these.  For the functions that the evaluator knows, this
is evaluation as it is.

## What is here

* `Host` — what the functions of a host do; `Host.standard` — those that the evaluator knows.
* `Host.eval` — the evaluation of a tree with the functions of a host; `Host.eval_standard`.
* `Node.live` — the nodes of a tree outside of all parts that are never evaluated;
  `Node.assigned` — the names that they bind.
* `Host.Theory` — what is asked of the single steps of evaluations for `Host.Theory.eval_keeps`: all
  trees with fitting live nodes keep to it.
* `Host.Calls` — the children that the evaluation of a node comes to; `Host.calls_standard`.
* `Host.Occurs` — what comes up in the course of an evaluation; `Host.Theory.occurs` — it keeps to
  the theory as well.
-/

set_option autoImplicit false
namespace Juxta

/-! ## Hosts -/

/-- A host: what its functions do when they are called at a frame. -/
structure Host where
  run : Nat → Native → List Value → Eval Value

namespace Host

/-- The host whose functions do what the evaluator knows of them. -/
def standard : Host := ⟨fun _ f args => f.action.run f.name args⟩

/-- Calls a function of a host.  The number of arguments is checked first, if it is fixed. -/
def call (h : Host) (frame : Nat) (f : Native) (args : List Value) : Eval Value :=
  match f.arity with
  | some wanted =>
    if args.length = wanted then h.run frame f args
    else Eval.fail (.arity f.name wanted args.length)
  | none => h.run frame f args

mutual

/-- The evaluation of a tree at a frame, with the functions of a host. -/
def eval (h : Host) (frame : Nat) : Node → Eval Value
  | .leaf kind payload start => (Node.leaf kind payload start).eval frame
  | .branch kind children start =>
    match kind, children with
    | .program, nodes => Eval.locating frame start do
      let _ ← evalAll h frame nodes
      pure .nil
    | .expressions, nodes => Eval.locating frame start do
      let values ← evalAll h frame nodes
      pure (values.getLast?.getD .nil)
    | .functionCall, callee :: args => Eval.locating frame start do
      let v ← eval h frame callee
      let f ← Eval.ofResult v.asNative
      let values ← evalAll h frame args
      h.call frame f values
    | .binary, [lhs, operator, rhs] => Eval.locating frame start do
      let symbol ← operator.operatorSymbol
      Node.evalBinary frame symbol lhs (eval h frame lhs) (eval h frame rhs)
    | .parenthesis, inner :: _ => Eval.locating frame start (eval h frame inner)
    -- All other trees are evaluated without those below.
    | kind, children => (Node.branch kind children start).eval frame

/-- The evaluation of some trees from left to right, with the functions of a host. -/
def evalAll (h : Host) (frame : Nat) : List Node → Eval (List Value)
  | [] => pure []
  | n :: ns => do
    let v ← eval h frame n
    let vs ← evalAll h frame ns
    pure (v :: vs)

end

theorem call_standard (frame : Nat) (f : Native) (args : List Value) :
    standard.call frame f args = f.call args :=
  rfl

mutual

/-- **With the functions that the evaluator knows, this is evaluation.** -/
theorem eval_standard (frame : Nat) : ∀ n : Node, standard.eval frame n = n.eval frame
  | .leaf _ _ _ => rfl
  | .branch kind children start => by
    rw [eval.eq_def]
    dsimp only
    split
    · rw [Node.eval, evalAll_standard frame]
    · rw [Node.eval, evalAll_standard frame]
    · next callee args =>
      rw [Node.eval, evalAll_standard frame args, eval_standard frame callee]
      simp only [call_standard]
    · next lhs operator rhs =>
      rw [Node.eval, eval_standard frame lhs, eval_standard frame rhs]
    · next inner rest => rw [Node.eval, eval_standard frame inner]
    · rfl

theorem evalAll_standard (frame : Nat) :
    ∀ ns : List Node, standard.evalAll frame ns = Node.evalAll frame ns
  | [] => by rw [evalAll, Node.evalAll]
  | n :: ns => by rw [evalAll, Node.evalAll, eval_standard frame n, evalAll_standard frame ns]

end

end Host

/-! ## Live nodes -/

namespace Node

/-- Whether nothing below a node of this kind is ever evaluated: it is kept as it is, or its
evaluation fails. -/
def Kind.isInert : Kind → Bool
  | quoted | block | propertyAccess | unquote => true
  | _ => false

mutual

/-- The nodes of a tree outside of all quotations, blocks, property accesses and unquotations. -/
def live : Node → List Node
  | leaf k p s => if k.isInert then [] else [leaf k p s]
  | branch k cs s => if k.isInert then [] else branch k cs s :: liveOfAll cs

/-- The live nodes of some trees. -/
def liveOfAll : List Node → List Node
  | [] => []
  | n :: ns => live n ++ liveOfAll ns

end

/-- The name that a node binds: it is an assignment to an identifier. -/
def target? : Node → Option Name
  | branch .binary [leaf .identifier p _, operator, _] _ =>
    match operator.leafValue .operator with
    | .ok symbol => if symbol.plain = ":=" then p.name? else none
    | .error _ => none
  | _ => none

/-- The names that a tree assigns: those that its live nodes bind. -/
def assigned (n : Node) : List Name :=
  n.live.filterMap target?

/-- The value that a node stands for by itself. -/
def literal? : Node → Option Value
  | leaf .integer p _ => some (.ofLiteral .int p)
  | leaf .float p _ => some (.ofLiteral .float p)
  | leaf .string p _ => some (.ofLiteral .str p)
  | _ => none

/-- The node binds only names that satisfy `D`, and stands only for a value that satisfies `Q`. -/
structure Fits (D : Name → Prop) (Q : Value → Prop) (n : Node) : Prop where
  target : ∀ name, n.target? = some name → D name
  literal : ∀ v, n.literal? = some v → Q v

variable {D : Name → Prop} {Q : Value → Prop} {k : Kind} {children : List Node} {start : Option Int}

theorem mem_liveOfAll {d : Node} {ns : List Node} : d ∈ liveOfAll ns ↔ ∃ n ∈ ns, d ∈ n.live := by
  induction ns with
  | nil => simp [liveOfAll]
  | cons n ns ih => simp [liveOfAll, ih]

/-- The live nodes of a branch are the branch itself and those of its children. -/
theorem forall_live_branch {R : Node → Prop} (hk : k.isInert = false) :
    (∀ c ∈ (branch k children start).live, R c) ↔
      R (branch k children start) ∧ ∀ n ∈ children, ∀ c ∈ n.live, R c := by
  rw [live, hk, if_neg Bool.false_ne_true, List.forall_mem_cons]
  refine and_congr_right' ⟨fun h n hn c hc => h c (mem_liveOfAll.2 ⟨n, hn, hc⟩), fun h c hc => ?_⟩
  obtain ⟨n, hn, hc⟩ := mem_liveOfAll.1 hc
  exact h n hn c hc

end Node

/-! ## Endings -/

/-- What an evaluation keeps holds of the machine however it ends. -/
theorem Eval.Keeps.machine {P : Machine → Prop} {Q : Value → Prop} {I : Interrupt → Prop}
    {x : Eval Value} {m : Machine} (h : x.Keeps P Q I) (hm : P m) : P (endingOf (x m)).2 := by
  cases hx : x m with
  | ok v m' => exact (h.of_ok hm hx).1
  | error i m' =>
    have hm' := (h.of_error hm hx).1
    cases i <;> exact hm'

/-- What holds of the machine however an evaluation ends, the evaluation keeps. -/
theorem Eval.leaves_of_endingOf {P : Machine → Prop} {x : Eval Value}
    (h : ∀ m, P m → P (endingOf (x m)).2) : x.Leaves P := by
  intro m hm
  have hleft := h m hm
  cases hx : x m with
  | ok v m' =>
    rw [hx] at hleft
    exact ⟨hleft, trivial⟩
  | error i m' =>
    rw [hx] at hleft
    cases i <;> exact ⟨hleft, trivial⟩

/-! ## Theories of evaluation with a host -/

/-- What evaluation with a host keeps to, step by step: machines that satisfy `P`, values that
satisfy `Q`, and exits that satisfy `I`, as long as it only binds names that satisfy `D`.  It may
fail in any way. -/
structure Host.Theory (h : Host) (frame : Nat) (D : Name → Prop) (P : Machine → Prop)
    (Q : Value → Prop) (I : Interrupt → Prop) : Prop where
  nil : Q .nil
  quoted : ∀ n, Q (.quoted n)
  lookup : ∀ m name v, P m → m.env.get? frame name = some v → Q v
  define : ∀ m name v, D name → Q v → P m → P { m with env := m.env.define frame name v }
  operator : ∀ symbol l r v, Q l → Q r → applyOperator symbol l r = .ok v → Q v
  run : ∀ f vs, Q (.native f) → (∀ v ∈ vs, Q v) → (h.run frame f vs).Keeps P Q I
  failure : ∀ f, I (.failure f)
  defect : ∀ d, I (.defect d)

namespace Host.Theory

variable {h : Host} {frame : Nat} {D : Name → Prop} {P : Machine → Prop} {Q : Value → Prop}
  {I : Interrupt → Prop}

theorem locating {x : Eval Value} (ht : h.Theory frame D P Q I) (hx : x.Keeps P Q I)
    (start : Option Int) : (Eval.locating frame start x).Keeps P Q I :=
  hx.locating fun _ _ _ => ht.failure _

theorem call (ht : h.Theory frame D P Q I) {f : Native} {vs : List Value} (hf : Q (.native f))
    (hvs : ∀ v ∈ vs, Q v) : (h.call frame f vs).Keeps P Q I := by
  rw [Host.call]
  split
  · split
    · exact ht.run f vs hf hvs
    · exact .fail (ht.failure _)
  · exact ht.run f vs hf hvs

theorem callee (ht : h.Theory frame D P Q I) {v : Value} (hv : Q v) :
    (Eval.ofResult v.asNative).Keeps P (fun f => Q (.native f)) I := by
  refine .ofResult (fun f hf => ?_) fun _ _ => ht.failure _
  cases v with
  | native g =>
    cases hf
    exact hv
  | _ => cases hf

/-- A leaf that fits keeps to the theory. -/
theorem evalLeaf (ht : h.Theory frame D P Q I) {kind : Node.Kind} {payload : Node.Payload}
    {start : Option Int} (hfits : ∀ c ∈ (Node.leaf kind payload start).live, c.Fits D Q) :
    (Node.evalLeaf frame kind payload start).Keeps P Q I := by
  rw [Node.live] at hfits
  cases kind with
  | identifier =>
    intro m hm
    rw [Node.evalLeaf, Eval.lookup_apply]
    cases hget : payload.name?.bind (m.env.get? frame) with
    | none => exact ⟨hm, ht.failure _⟩
    | some v =>
      obtain ⟨name, -, hname⟩ := Option.bind_eq_some_iff.1 hget
      exact ⟨hm, ht.lookup m name v hm hname⟩
  | integer | float | string =>
    exact .pure ((hfits _ List.mem_cons_self).literal _ rfl)
  | program | expressions => exact .pure ht.nil
  | quoted => exact .pure (ht.quoted _)
  | functionCall | binary | parenthesis => exact .throw (ht.defect _)
  | block | propertyAccess | unquote | operator | other name => exact .fail (ht.failure _)

/-- An assignment binds only the name that its node does. -/
theorem define_keeps (ht : h.Theory frame D P Q I) {p : Node.Payload} {v : Value}
    (hD : ∀ name, p.name? = some name → D name) (hv : Q v) :
    (Eval.define frame p v).Keeps P (fun _ => True) I := by
  rw [Eval.define]
  cases hname : p.name? with
  | none => exact .pure trivial
  | some name => exact .ofChange fun m hm => ht.define m name v (hD name hname) hv hm

theorem operatorSymbol (ht : h.Theory frame D P Q I) (operator : Node) :
    operator.operatorSymbol.Keeps P
      (fun symbol => ∃ p, operator.leafValue .operator = .ok p ∧ symbol = p.plain) I := by
  rw [Node.operatorSymbol]
  split
  · next p hp => exact .pure ⟨p, hp, rfl⟩
  · exact .throw (ht.defect _)

theorem assignmentTarget (ht : h.Theory frame D P Q I) (target : Node) :
    target.assignmentTarget.Keeps P (fun p => ∃ place, target = .leaf .identifier p place) I := by
  rw [Node.assignmentTarget.eq_def]
  split
  · exact .pure ⟨_, rfl⟩
  · exact .throw (ht.defect _)
  · exact .fail (ht.failure _)

theorem binary (ht : h.Theory frame D P Q I) {lhs operator rhs : Node} {start : Option Int}
    (hfits : (Node.branch .binary [lhs, operator, rhs] start).Fits D Q) {left right : Eval Value}
    (hl : left.Keeps P Q I) (hr : right.Keeps P Q I) :
    Eval.Keeps P Q I (do
      let symbol ← operator.operatorSymbol
      Node.evalBinary frame symbol lhs left right) := by
  refine (ht.operatorSymbol operator).bind ?_
  rintro _ ⟨symbol, hsymbol, rfl⟩
  refine .evalBinary ht.nil (ht.assignmentTarget lhs) ?_ hl hr fun l r hl hr =>
    .ofResult (fun v => ht.operator _ l r v hl hr) fun _ _ => ht.failure _
  rintro hassign p v ⟨place, rfl⟩ hv
  refine ht.define_keeps (fun name hname => hfits.target name ?_) hv
  rw [Node.target?, hsymbol]
  dsimp only
  rw [if_pos hassign, hname]

mutual

/-- **Trees whose live nodes fit keep to every theory of evaluation.** -/
theorem eval_keeps (ht : h.Theory frame D P Q I) :
    ∀ n : Node, (∀ c ∈ n.live, c.Fits D Q) → (h.eval frame n).Keeps P Q I
  | .leaf kind payload start, hfits => by
    rw [Host.eval, Node.eval]
    exact ht.locating (ht.evalLeaf hfits) start
  | .branch kind children start, hfits => by
    cases kind with
    | program =>
      rw [Host.eval]
      refine ht.locating ?_ start
      exact (ht.evalAll_keeps children ((Node.forall_live_branch rfl).1 hfits).2).bind fun _ _ =>
        .pure ht.nil
    | expressions =>
      rw [Host.eval]
      refine ht.locating ?_ start
      exact (ht.evalAll_keeps children ((Node.forall_live_branch rfl).1 hfits).2).bind fun _ hvs =>
        .pure (getLast_keeps ht.nil hvs)
    | functionCall =>
      cases children with
      | nil =>
        simp only [Host.eval, Node.eval]
        exact ht.locating (.throw (ht.defect _)) start
      | cons callee args =>
        obtain ⟨-, hchildren⟩ := (Node.forall_live_branch rfl).1 hfits
        obtain ⟨hcallee, hargs⟩ := List.forall_mem_cons.1 hchildren
        rw [Host.eval]
        refine ht.locating ?_ start
        refine (ht.eval_keeps callee hcallee).bind fun v hv => ?_
        refine (ht.callee hv).bind fun f hf => ?_
        exact (ht.evalAll_keeps args hargs).bind fun vs hvs => ht.call hf hvs
    | binary =>
      rcases children with _ | ⟨lhs, _ | ⟨op, _ | ⟨rhs, _ | ⟨extra, rest⟩⟩⟩⟩
      case cons.cons.cons.nil =>
        obtain ⟨hnode, hchildren⟩ := (Node.forall_live_branch rfl).1 hfits
        have hl := ht.eval_keeps lhs (hchildren lhs (by simp))
        have hr := ht.eval_keeps rhs (hchildren rhs (by simp))
        rw [Host.eval]
        exact ht.locating (ht.binary hnode hl hr) start
      all_goals
        simp only [Host.eval, Node.eval]
        exact ht.locating (.throw (ht.defect _)) start
    | quoted =>
      simp only [Host.eval, Node.eval]
      exact ht.locating (.pure (ht.quoted _)) start
    | parenthesis =>
      cases children with
      | nil =>
        simp only [Host.eval, Node.eval]
        exact ht.locating (.throw (ht.defect _)) start
      | cons inner rest =>
        obtain ⟨-, hchildren⟩ := (Node.forall_live_branch rfl).1 hfits
        rw [Host.eval]
        exact ht.locating (ht.eval_keeps inner (hchildren inner List.mem_cons_self)) start
    | identifier | integer | float | string =>
      simp only [Host.eval, Node.eval]
      exact ht.locating (.throw (ht.defect _)) start
    | block | propertyAccess | unquote | operator | other name =>
      simp only [Host.eval, Node.eval]
      exact ht.locating (.fail (ht.failure _)) start

theorem evalAll_keeps (ht : h.Theory frame D P Q I) :
    ∀ ns : List Node, (∀ n ∈ ns, ∀ c ∈ n.live, c.Fits D Q) →
      (h.evalAll frame ns).Keeps P (fun vs => ∀ v ∈ vs, Q v) I
  | [], _ => by
    rw [Host.evalAll]
    exact .pure (List.forall_mem_nil _)
  | n :: ns, hfits => by
    obtain ⟨hn, hns⟩ := List.forall_mem_cons.1 hfits
    rw [Host.evalAll]
    exact (ht.eval_keeps n hn).bind fun v hv => (ht.evalAll_keeps ns hns).bind fun vs hvs =>
      .pure (List.forall_mem_cons.2 ⟨hv, hvs⟩)

end

end Host.Theory

/-! ## The course of an evaluation -/

namespace Host

/-- What can come up in the course of an evaluation: a node yields a value, or the arguments of a
function are at hand. -/
inductive Event where
  | value (v : Value)
  | call (f : Native) (args : List Value)

/-- All values of an event satisfy the property. -/
def Event.All (Q : Value → Prop) : Event → Prop
  | value v => Q v
  | call _ args => ∀ v ∈ args, Q v

theorem Event.All.mono {Q R : Value → Prop} {e : Event} (h : e.All Q) (hQ : ∀ v, Q v → R v) :
    e.All R := by
  cases e with
  | value v => exact hQ v h
  | call f args => exact fun v hv => hQ v (h v hv)

/-- The evaluation of the first node comes to that of the second, which is one of its children. -/
inductive Calls (h : Host) (frame : Nat) : Node → Machine → Node → Machine → Prop
  /-- Statements, and the parts of a call, come one after the other; the arguments of a call only if
  the callee is a function. -/
  | part {k : Node.Kind} {children before after : List Node} {c : Node} {start : Option Int}
      {m m' : Machine} {vs : List Value} (hk : k ∈ [.program, .expressions, .functionCall])
      (hchildren : children = before ++ c :: after)
      (hbefore : h.evalAll frame before m = .ok vs m')
      (hcallee : k = .functionCall → ∀ v ∈ vs.head?, ∃ f, v.asNative = .ok f) :
      Calls h frame (.branch k children start) m c m'
  | inner {c : Node} {rest : List Node} {start : Option Int} {m : Machine} :
      Calls h frame (.branch .parenthesis (c :: rest) start) m c m
  | assigned {p p' : Node.Payload} {op rhs : Node} {place start : Option Int} {m : Machine}
      (hop : op.leafValue .operator = .ok p) (hassign : p.plain = ":=") :
      Calls h frame (.branch .binary [.leaf .identifier p' place, op, rhs] start) m rhs m
  | left {lhs op rhs : Node} {start : Option Int} {m : Machine} {p : Node.Payload}
      (hop : op.leafValue .operator = .ok p) (hassign : p.plain ≠ ":=") :
      Calls h frame (.branch .binary [lhs, op, rhs] start) m lhs m
  /-- The logical operators come to their right operand only if the left one does not decide. -/
  | right {lhs op rhs : Node} {start : Option Int} {m m' : Machine} {p : Node.Payload} {v : Value}
      (hop : op.leafValue .operator = .ok p) (hassign : p.plain ≠ ":=")
      (hl : h.eval frame lhs m = .ok v m') (hand : p.plain = "&&" → v.isTruthy = true)
      (hor : p.plain = "||" → v.isTruthy = false) :
      Calls h frame (.branch .binary [lhs, op, rhs] start) m rhs m'

/-- With the functions that the evaluator knows, evaluations come to the same nodes. -/
theorem calls_standard {frame : Nat} {n c : Node} {m m' : Machine} :
    standard.Calls frame n m c m' ↔ Juxta.Calls frame n m c m' := by
  constructor
  · intro hcalls
    cases hcalls with
    | part hk hchildren hbefore hcallee =>
      exact .part hk hchildren (evalAll_standard frame _ ▸ hbefore) hcallee
    | inner => exact .inner
    | assigned hop hassign => exact .assigned hop hassign
    | left hop hassign => exact .left hop hassign
    | right hop hassign hl hand hor =>
      exact .right hop hassign (eval_standard frame _ ▸ hl) hand hor
  · intro hcalls
    cases hcalls with
    | part hk hchildren hbefore hcallee =>
      exact .part hk hchildren (evalAll_standard frame _ ▸ hbefore) hcallee
    | inner => exact .inner
    | assigned hop hassign => exact .assigned hop hassign
    | left hop hassign => exact .left hop hassign
    | right hop hassign hl hand hor =>
      exact .right hop hassign (eval_standard frame _ ▸ hl) hand hor

/-- The event comes up in the course of the evaluation of a node, also if that has no value. -/
inductive Occurs (h : Host) (frame : Nat) : Node → Machine → Event → Prop
  | value {n : Node} {m m' : Machine} {v : Value} (hv : h.eval frame n m = .ok v m') :
      Occurs h frame n m (.value v)
  | call {callee : Node} {args : List Node} {start : Option Int} {m m₁ m₂ : Machine} {f : Native}
      {vs : List Value} (hcallee : h.eval frame callee m = .ok (.native f) m₁)
      (hargs : h.evalAll frame args m₁ = .ok vs m₂) :
      Occurs h frame (.branch .functionCall (callee :: args) start) m (.call f vs)
  | within {n c : Node} {m m' : Machine} {e : Event} (hcalls : h.Calls frame n m c m')
      (hc : Occurs h frame c m' e) : Occurs h frame n m e

namespace Theory

variable {h : Host} {frame : Nat} {D : Name → Prop} {P : Machine → Prop} {Q : Value → Prop}
  {I : Interrupt → Prop} {n c : Node} {m m' : Machine}

/-- Where the evaluation of a tree that fits comes to, the tree fits and the machine is good. -/
theorem calls (ht : h.Theory frame D P Q I) (hcalls : h.Calls frame n m c m')
    (hfits : ∀ d ∈ n.live, d.Fits D Q) (hm : P m) : (∀ d ∈ c.live, d.Fits D Q) ∧ P m' := by
  cases hcalls with
  | @part k children before after c start m m' vs hk hchildren hbefore =>
    have hinert : k.isInert = false := by
      simp only [List.mem_cons, List.not_mem_nil, or_false] at hk
      rcases hk with rfl | rfl | rfl <;> rfl
    obtain ⟨-, hall⟩ := (Node.forall_live_branch hinert).1 hfits
    rw [hchildren] at hall
    obtain ⟨hfront, hback⟩ := List.forall_mem_append.1 hall
    exact ⟨(List.forall_mem_cons.1 hback).1, ((ht.evalAll_keeps before hfront).of_ok hm hbefore).1⟩
  | inner =>
    obtain ⟨-, hall⟩ := (Node.forall_live_branch rfl).1 hfits
    exact ⟨hall _ List.mem_cons_self, hm⟩
  | assigned hop hassign =>
    obtain ⟨-, hall⟩ := (Node.forall_live_branch rfl).1 hfits
    exact ⟨hall _ (by simp), hm⟩
  | left hop hassign =>
    obtain ⟨-, hall⟩ := (Node.forall_live_branch rfl).1 hfits
    exact ⟨hall _ List.mem_cons_self, hm⟩
  | right hop hassign hl =>
    obtain ⟨-, hall⟩ := (Node.forall_live_branch rfl).1 hfits
    have hkeeps := ht.eval_keeps _ (hall _ List.mem_cons_self)
    exact ⟨hall _ (by simp), (hkeeps.of_ok hm hl).1⟩

/-- **All values that come up in the course of an evaluation keep to the theory.** -/
theorem occurs (ht : h.Theory frame D P Q I) {e : Event} (he : h.Occurs frame n m e)
    (hfits : ∀ d ∈ n.live, d.Fits D Q) (hm : P m) : e.All Q := by
  induction he with
  | value hv => exact ((ht.eval_keeps _ hfits).of_ok hm hv).2
  | call hcallee hargs =>
    obtain ⟨-, hall⟩ := (Node.forall_live_branch rfl).1 hfits
    obtain ⟨hfirst, hrest⟩ := List.forall_mem_cons.1 hall
    obtain ⟨hm₁, -⟩ := (ht.eval_keeps _ hfirst).of_ok hm hcallee
    exact ((ht.evalAll_keeps _ hrest).of_ok hm₁ hargs).2
  | within hcalls _ ih =>
    obtain ⟨hfits', hm'⟩ := ht.calls hcalls hfits hm
    exact ih hfits' hm'

end Theory
end Host
end Juxta
