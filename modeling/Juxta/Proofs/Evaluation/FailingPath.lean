import Juxta.Proofs.Evaluation.Logic

/-!
# Where an evaluation fails

A tree fails because one of its nodes does.  That node raises a cause of its own, and all nodes
around it that were being evaluated pass the failure on; together they are the failing path.  Going
outward on the path, the first node that knows where it stands in the source gives the failure its
place, which no other node changes.

## What is here

* `Raises frame n m cause` — the node itself raises the cause: everything that it evaluates before
  has a value.
* `Calls frame n m c m'` — the evaluation of a node in `m` comes to that of its child `c` in `m'`.
* `FailsAlong frame n m path cause` — the failing path, from the node that raises the cause outward.
* `Node.eval_eq_failure_iff` — a tree fails exactly along such a path, at the place that the path
  has in the source; `FailsAlong.unique` — there is only one.
* `Cause.isRaisedBy` — which kinds of nodes raise a cause.
-/

set_option autoImplicit false
namespace Juxta

variable {frame : Nat} {n c d : Node} {m m₁ m₂ m' : Machine} {cause cause' : Cause}
  {path path' : List Node}

/-! ## Failing paths -/

/-- The node raises the cause: what it evaluates before has values, and its own part fails. -/
inductive Raises (frame : Nat) : Node → Machine → Cause → Prop
  | unbound {p : Node.Payload} {start : Option Int} {m : Machine}
      (h : p.name?.bind (m.env.get? frame) = none) :
      Raises frame (.leaf .identifier p start) m (.unbound p.plain)
  | notCallable {callee : Node} {args : List Node} {start : Option Int} {m m' : Machine}
      {v : Value} {cause : Cause} (hcallee : callee.eval frame m = .ok v m')
      (h : v.asNative = .error cause) :
      Raises frame (.branch .functionCall (callee :: args) start) m cause
  | call {callee : Node} {args : List Node} {start : Option Int} {m m₁ m₂ m₃ : Machine}
      {v : Value} {f : Native} {vs : List Value} {cause : Cause}
      (hcallee : callee.eval frame m = .ok v m₁) (hf : v.asNative = .ok f)
      (hargs : Node.evalAll frame args m₁ = .ok vs m₂)
      (h : f.call vs m₂ = .error (.failure (.ofCause cause)) m₃) :
      Raises frame (.branch .functionCall (callee :: args) start) m cause
  | target {lhs op rhs : Node} {start : Option Int} {m : Machine} {p : Node.Payload}
      (hop : op.leafValue .operator = .ok p) (hassign : p.plain = ":=")
      (h : lhs.kind ≠ .identifier) :
      Raises frame (.branch .binary [lhs, op, rhs] start) m .expectedIdentifier
  | operator {lhs op rhs : Node} {start : Option Int} {m m₁ m₂ : Machine} {p : Node.Payload}
      {l r : Value} {cause : Cause} (hop : op.leafValue .operator = .ok p)
      (hstrict : p.plain ∉ [":=", "&&", "||"]) (hl : lhs.eval frame m = .ok l m₁)
      (hr : rhs.eval frame m₁ = .ok r m₂) (h : applyOperator p.plain l r = .error cause) :
      Raises frame (.branch .binary [lhs, op, rhs] start) m cause
  | notImplemented {n : Node} {m : Machine} (h : n.kind ∈ [.block, .propertyAccess, .unquote]) :
      Raises frame n m (.notImplemented n.kind)
  | unexpected {n : Node} {m : Machine} (h : n.kind = .operator ∨ ∃ name, n.kind = .other name) :
      Raises frame n m (.unexpectedNode n.kind)

/-- The evaluation of the first node comes to that of the second, which is one of its children. -/
inductive Calls (frame : Nat) : Node → Machine → Node → Machine → Prop
  /-- Statements, and the parts of a call, come one after the other; the arguments of a call only if
  the callee is a function. -/
  | part {k : Node.Kind} {children before after : List Node} {c : Node} {start : Option Int}
      {m m' : Machine} {vs : List Value} (hk : k ∈ [.program, .expressions, .functionCall])
      (hchildren : children = before ++ c :: after)
      (hbefore : Node.evalAll frame before m = .ok vs m')
      (hcallee : k = .functionCall → ∀ v ∈ vs.head?, ∃ f, v.asNative = .ok f) :
      Calls frame (.branch k children start) m c m'
  | inner {c : Node} {rest : List Node} {start : Option Int} {m : Machine} :
      Calls frame (.branch .parenthesis (c :: rest) start) m c m
  | assigned {p p' : Node.Payload} {op rhs : Node} {place start : Option Int} {m : Machine}
      (hop : op.leafValue .operator = .ok p) (hassign : p.plain = ":=") :
      Calls frame (.branch .binary [.leaf .identifier p' place, op, rhs] start) m rhs m
  | left {lhs op rhs : Node} {start : Option Int} {m : Machine} {p : Node.Payload}
      (hop : op.leafValue .operator = .ok p) (hassign : p.plain ≠ ":=") :
      Calls frame (.branch .binary [lhs, op, rhs] start) m lhs m
  /-- The logical operators come to their right operand only if the left one does not decide. -/
  | right {lhs op rhs : Node} {start : Option Int} {m m' : Machine} {p : Node.Payload} {v : Value}
      (hop : op.leafValue .operator = .ok p) (hassign : p.plain ≠ ":=")
      (hl : lhs.eval frame m = .ok v m') (hand : p.plain = "&&" → v.isTruthy = true)
      (hor : p.plain = "||" → v.isTruthy = false) :
      Calls frame (.branch .binary [lhs, op, rhs] start) m rhs m'

/-- The evaluation of the node fails along a path: the first node on it raises the cause, each node
is called by the next, and the last is the node itself. -/
inductive FailsAlong (frame : Nat) : Node → Machine → List Node → Cause → Prop
  | here {n : Node} {m : Machine} {cause : Cause} (h : Raises frame n m cause) :
      FailsAlong frame n m [n] cause
  | within {n c : Node} {m m' : Machine} {path : List Node} {cause : Cause}
      (hcall : Calls frame n m c m') (h : FailsAlong frame c m' path cause) :
      FailsAlong frame n m (path ++ [n]) cause

/-- The position of a node in a source, if both are known and the node lies in the source. -/
def Node.position? (source : Option String) (n : Node) : Option Position := do
  Position.ofOffset? (← source) (← n.start)

/-- The place of a path: the position of the first of its nodes that has one. -/
def placeOn (source : Option String) (path : List Node) : Place :=
  ((path.findSome? (·.position? source)).map Place.ofPosition).getD .unknown

/-- The kinds of nodes that raise a cause. -/
def Cause.isRaisedBy : Cause → Node.Kind → Bool
  | unbound _, k => k = .identifier
  | notCallable _, k | arity _ _ _, k | exitArity _, k | exitCode _, k | foreignAnswer _ _, k =>
    k = .functionCall
  | expectedIdentifier, k | unsupportedOperator _ _ _, k | zeroDivision, k => k = .binary
  | notImplemented k', k => k = k' && [.block, .propertyAccess, .unquote].contains k
  | unexpectedNode k', k => k = k'
  | reported _, _ => false

/-! ## Operators and native functions -/

theorem Eval.ofResult_eq_failure {α : Type} {r : Except Cause α} {g : Failure}
    (h : Eval.ofResult r m = .error (.failure g) m') :
    ∃ cause, g = .ofCause cause ∧ r = .error cause := by
  cases r with
  | ok a => cases h
  | error cause =>
    cases h
    exact ⟨cause, rfl, rfl⟩

theorem Eval.ofResult_eq_ok {α : Type} {r : Except Cause α} {a : α}
    (h : Eval.ofResult r m = .ok a m') : m' = m ∧ r = .ok a := by
  cases r with
  | ok b =>
    cases h
    exact ⟨rfl, rfl⟩
  | error cause => cases h

/-- A failure, if the interrupt is one, is without a place and of a cause that such nodes raise. -/
def Interrupt.IsRaisedBy (k : Node.Kind) (i : Interrupt) : Prop :=
  ∀ g, i = .failure g → g = .ofCause g.cause ∧ g.cause.isRaisedBy k = true

theorem Interrupt.isRaisedBy_ofCause {k : Node.Kind} (h : cause.isRaisedBy k = true) :
    (Interrupt.failure (.ofCause cause)).IsRaisedBy k := by
  rintro _ ⟨⟩
  exact ⟨rfl, h⟩

theorem Interrupt.isRaisedBy_exit (k : Node.Kind) (code : Node.Payload) :
    (Interrupt.exit code).IsRaisedBy k :=
  nofun

theorem Action.run_keeps (name : String) (args : List Value) (action : Action) :
    (action.run name args).Keeps (fun _ => True) (fun _ => True)
      (Interrupt.IsRaisedBy .functionCall) := by
  cases action with
  | printLine =>
    exact (Eval.Keeps.ofChange fun _ _ => trivial).bind fun _ _ => .pure trivial
  | quit =>
    rcases args with _ | ⟨v, _ | ⟨w, args⟩⟩
    · exact .fail (Interrupt.isRaisedBy_ofCause rfl)
    · simp only [Action.run]
      split
      · exact .throw (Interrupt.isRaisedBy_exit _ _)
      · exact .fail (Interrupt.isRaisedBy_ofCause rfl)
    · exact .fail (Interrupt.isRaisedBy_ofCause rfl)
  | nothing | count | typeOfFirst | last => exact .pure trivial
  | foreign shown => exact .fail (Interrupt.isRaisedBy_ofCause rfl)

theorem Native.call_keeps (f : Native) (args : List Value) :
    (f.call args).Keeps (fun _ => True) (fun _ => True) (Interrupt.IsRaisedBy .functionCall) := by
  rw [Native.call]
  split
  · split
    · exact Action.run_keeps _ _ _
    · exact .fail (Interrupt.isRaisedBy_ofCause rfl)
  · exact Action.run_keeps _ _ _

/-- Native functions fail without a place, for causes of calls. -/
theorem Native.call_eq_failure {f : Native} {vs : List Value} {g : Failure}
    (h : f.call vs m = .error (.failure g) m') :
    g = .ofCause g.cause ∧ g.cause.isRaisedBy .functionCall = true :=
  ((f.call_keeps vs).of_error trivial h).2 g rfl

theorem Operator.onInts_eq_error {op : Operator} {a b : Int} (h : op.onInts a b = .error cause) :
    cause = .zeroDivision := by
  cases op with
  | add | sub | mul => cases h
  | div | mod =>
    rw [Operator.onInts] at h
    split at h
    · exact (Except.error.inj h).symm
    · cases h

theorem Operator.onInts_map_eq_error {op : Operator} {a b : Int}
    (h : (op.onInts a b).map Value.int = .error cause) : cause = .zeroDivision := by
  cases hints : op.onInts a b with
  | ok n =>
    rw [hints] at h
    cases h
  | error cause' =>
    rw [hints] at h
    cases h
    exact Operator.onInts_eq_error hints

theorem Operator.onInts_map_eq_ok {op : Operator} {a b : Int} {v : Value}
    (h : (op.onInts a b).map Value.int = .ok v) : ∃ n, v = .int n := by
  cases hints : op.onInts a b with
  | ok n =>
    rw [hints] at h
    exact ⟨n, (Except.ok.inj h).symm⟩
  | error cause =>
    rw [hints] at h
    cases h

/-- Operators apply only to literals of one type. -/
theorem Operator.onLiterals?_eq_some {op : Operator} {l r : Value} {result : Except Cause Value}
    (h : op.onLiterals? l r = some result) :
    ∃ type p q, l.literal? = some (type, p) ∧ r.literal? = some (type, q) ∧
      op.onContents? p q type = some result := by
  rw [Operator.onLiterals?, Option.bind_eq_bind, Option.bind_eq_some_iff] at h
  obtain ⟨⟨type, p⟩, hl, h⟩ := h
  obtain ⟨⟨type', q⟩, hr, h⟩ := Option.bind_eq_some_iff.1 h
  dsimp only at h
  split at h
  · next htype => exact ⟨type, p, q, hl, htype ▸ hr, h⟩
  · cases h

/-- Where contents do not fit their type, only a division by zero fails. -/
theorem Operator.onLiterals?_eq_error {op : Operator} {l r : Value}
    (h : op.onLiterals? l r = some (.error cause)) : cause = .zeroDivision := by
  obtain ⟨type, p, q, -, -, h⟩ := Operator.onLiterals?_eq_some h
  cases type with
  | int =>
    rw [Operator.onContents?, Operator.onIntContents?.eq_def] at h
    split at h
    · cases h
      rfl
    · split at h
      · exact Operator.onInts_map_eq_error (Option.some.inj h)
      · cases h
      · cases h
  | float =>
    rw [Operator.onContents?] at h
    split at h
    · cases h
    · obtain ⟨_, -, h⟩ := Option.map_eq_some_iff.1 h
      cases h
  | str =>
    rw [Operator.onContents?] at h
    split at h
    · obtain ⟨_, -, h⟩ := Option.map_eq_some_iff.1 h
      cases h
    · cases h

/-- An operator fails because it does not apply, or because it divides by zero. -/
theorem Operator.apply_eq_error {op : Operator} {l r : Value} (h : op.apply l r = .error cause) :
    cause = .zeroDivision ∨ cause = .unsupportedOperator op.symbol l.type r.type := by
  rw [Operator.apply.eq_def] at h
  split at h
  · exact .inl (Operator.onInts_map_eq_error h)
  · cases h
  · split at h
    · cases h
    · cases h
      exact .inr rfl
  · cases hliterals : op.onLiterals? l r with
    | none =>
      rw [hliterals] at h
      cases h
      exact .inr rfl
    | some result =>
      rw [hliterals] at h
      obtain rfl : result = .error cause := h
      exact .inl (Operator.onLiterals?_eq_error hliterals)

theorem applyOperator_eq_error {symbol : String} {l r : Value}
    (h : applyOperator symbol l r = .error cause) :
    cause = .zeroDivision ∨ cause = .unsupportedOperator symbol l.type r.type := by
  rw [applyOperator] at h
  split at h
  · next op hop =>
    have hsymbol : op.symbol = symbol := by
      simpa using List.find?_some hop
    exact hsymbol ▸ Operator.apply_eq_error h
  · cases h
    exact .inr rfl

/-! ## One step outward -/

theorem Node.assignmentTarget_eq_failure {target : Node} {g : Failure}
    (h : target.assignmentTarget m = .error (.failure g) m') :
    g = .ofCause .expectedIdentifier ∧ target.kind ≠ .identifier := by
  rw [Node.assignmentTarget.eq_def] at h
  split at h
  · cases h
  · cases h
  · next hleaf hbranch =>
    cases h
    refine ⟨rfl, fun hk => ?_⟩
    cases target with
    | leaf k p s =>
      obtain rfl : k = .identifier := hk
      exact hleaf p s rfl
    | branch k cs s =>
      obtain rfl : k = .identifier := hk
      exact hbranch cs s rfl

theorem Node.assignmentTarget_eq_ok {target : Node} {p : Node.Payload}
    (h : target.assignmentTarget m = .ok p m') :
    m' = m ∧ ∃ start, target = .leaf .identifier p start := by
  rw [Node.assignmentTarget.eq_def] at h
  split at h
  · cases h
    exact ⟨rfl, _, rfl⟩
  · cases h
  · cases h

theorem Node.operatorSymbol_eq_ok {op : Node} {symbol : String}
    (h : op.operatorSymbol m = .ok symbol m') :
    m' = m ∧ ∃ p, op.leafValue .operator = .ok p ∧ symbol = p.plain := by
  cases hp : op.leafValue .operator with
  | ok p =>
    rw [Node.operatorSymbol, hp] at h
    cases h
    exact ⟨rfl, p, rfl, rfl⟩
  | error d =>
    rw [Node.operatorSymbol, hp] at h
    cases h

theorem Node.operatorSymbol_ne_failure {op : Node} {g : Failure} :
    op.operatorSymbol m ≠ .error (.failure g) m' := by
  intro h
  cases hp : op.leafValue .operator with
  | ok p =>
    rw [Node.operatorSymbol, hp] at h
    cases h
  | error d =>
    rw [Node.operatorSymbol, hp] at h
    cases h

theorem Eval.define_ne_error {p : Node.Payload} {v : Value} {i : Interrupt} :
    Eval.define frame p v m ≠ .error i m' := by
  intro h
  cases hname : p.name? with
  | none =>
    rw [Eval.define, hname] at h
    cases h
  | some name =>
    rw [Eval.define, hname] at h
    cases h

theorem Node.assignmentTarget_of_kind {target : Node} (h : target.kind ≠ .identifier) :
    target.assignmentTarget m = .error (.failure (.ofCause .expectedIdentifier)) m := by
  rw [Node.assignmentTarget.eq_def]
  split
  · exact absurd rfl h
  · exact absurd rfl h
  · rfl

theorem Node.eval_binary {lhs op rhs : Node} {p : Node.Payload} {start : Option Int}
    (hop : op.leafValue .operator = .ok p) :
    (Node.branch .binary [lhs, op, rhs] start).eval frame =
      Eval.locating frame start
        (Node.evalBinary frame p.plain lhs (lhs.eval frame) (rhs.eval frame)) := by
  rw [Node.eval, Node.operatorSymbol, hop, pure_bind]

theorem Node.eval_of_notImplemented (h : n.kind ∈ [.block, .propertyAccess, .unquote]) :
    n.eval frame = Eval.locating frame n.start (Eval.fail (.notImplemented n.kind)) := by
  simp only [List.mem_cons, List.not_mem_nil, or_false] at h
  cases n with
  | leaf k p start =>
    rw [Node.eval]
    rcases h with rfl | rfl | rfl <;> rfl
  | branch k cs start => rcases h with rfl | rfl | rfl <;> rw [Node.eval] <;> rfl

theorem Node.eval_of_unexpected (h : n.kind = .operator ∨ ∃ name, n.kind = .other name) :
    n.eval frame = Eval.locating frame n.start (Eval.fail (.unexpectedNode n.kind)) := by
  cases n with
  | leaf k p start =>
    rw [Node.eval]
    rcases h with rfl | ⟨name, rfl⟩ <;> rfl
  | branch k cs start => rcases h with rfl | ⟨name, rfl⟩ <;> rw [Node.eval] <;> rfl

/-- Between two operands, the operator fails or an operand does. -/
theorem Node.evalBinary_eq_failure {lhs op rhs : Node} {p : Node.Payload} {start : Option Int}
    {g : Failure} (hop : op.leafValue .operator = .ok p)
    (h : Node.evalBinary frame p.plain lhs (lhs.eval frame) (rhs.eval frame) m =
      .error (.failure g) m') :
    (∃ cause, g = .ofCause cause ∧ Raises frame (.branch .binary [lhs, op, rhs] start) m cause) ∨
      ∃ c m₁, Calls frame (.branch .binary [lhs, op, rhs] start) m c m₁ ∧
        c.eval frame m₁ = .error (.failure g) m' := by
  rw [Node.evalBinary] at h
  by_cases hassign : p.plain = ":="
  · rw [if_pos hassign] at h
    rcases Eval.bind_eq_error_iff.1 h with htarget | ⟨p', m₁, htarget, hrest⟩
    · obtain ⟨rfl, hkind⟩ := Node.assignmentTarget_eq_failure htarget
      exact .inl ⟨_, rfl, .target hop hassign hkind⟩
    · obtain ⟨rfl, place, rfl⟩ := Node.assignmentTarget_eq_ok htarget
      rcases Eval.bind_eq_error_iff.1 hrest with hr | ⟨v, m₂, -, hdefine⟩
      · exact .inr ⟨rhs, _, .assigned hop hassign, hr⟩
      · rcases Eval.bind_eq_error_iff.1 hdefine with hdefine | ⟨_, m₃, -, hnil⟩
        · exact absurd hdefine Eval.define_ne_error
        · cases hnil
  rw [if_neg hassign] at h
  by_cases hand : p.plain = "&&"
  · rw [if_pos hand] at h
    rcases Eval.bind_eq_error_iff.1 h with hl | ⟨v, m₁, hl, hrest⟩
    · exact .inr ⟨lhs, m, .left hop hassign, hl⟩
    · by_cases hv : v.isTruthy = true
      · rw [if_pos hv] at hrest
        refine .inr ⟨rhs, m₁, .right hop hassign hl (fun _ => hv) fun hor => ?_, hrest⟩
        rw [hand] at hor
        exact absurd hor (by decide)
      · rw [if_neg hv] at hrest
        cases hrest
  rw [if_neg hand] at h
  by_cases hor : p.plain = "||"
  · rw [if_pos hor] at h
    rcases Eval.bind_eq_error_iff.1 h with hl | ⟨v, m₁, hl, hrest⟩
    · exact .inr ⟨lhs, m, .left hop hassign, hl⟩
    · by_cases hv : v.isTruthy = true
      · rw [if_pos hv] at hrest
        cases hrest
      · rw [if_neg hv] at hrest
        exact .inr ⟨rhs, m₁, .right hop hassign hl (fun h => absurd h hand)
          fun _ => Bool.eq_false_iff.2 hv, hrest⟩
  rw [if_neg hor] at h
  rcases Eval.bind_eq_error_iff.1 h with hl | ⟨l, m₁, hl, hrest⟩
  · exact .inr ⟨lhs, m, .left hop hassign, hl⟩
  · rcases Eval.bind_eq_error_iff.1 hrest with hr | ⟨r, m₂, hr, happly⟩
    · exact .inr ⟨rhs, m₁, .right hop hassign hl (fun h => absurd h hand)
        fun h => absurd h hor, hr⟩
    · obtain ⟨cause, rfl, hcause⟩ := Eval.ofResult_eq_failure happly
      exact .inl ⟨cause, rfl, .operator hop (by simp [hassign, hand, hor]) hl hr hcause⟩

/-- A leaf fails by itself. -/
theorem Node.evalLeaf_eq_failure {k : Node.Kind} {p : Node.Payload} {start : Option Int}
    {g : Failure} (h : Node.evalLeaf frame k p start m = .error (.failure g) m') :
    ∃ cause, g = .ofCause cause ∧ Raises frame (.leaf k p start) m cause := by
  cases k with
  | identifier =>
    have hlookup : Eval.lookup frame p m = .error (.failure g) m' := h
    rw [Eval.lookup_apply] at hlookup
    cases hname : p.name?.bind (m.env.get? frame) with
    | some v =>
      rw [hname] at hlookup
      cases hlookup
    | none =>
      rw [hname] at hlookup
      cases hlookup
      exact ⟨_, rfl, .unbound hname⟩
  | integer | float | string | program | expressions | quoted => cases h
  | functionCall | binary | parenthesis => cases h
  | block | propertyAccess | unquote =>
    cases h
    exact ⟨_, rfl, .notImplemented (n := .leaf _ p start) (by simp [Node.kind])⟩
  | operator =>
    cases h
    exact ⟨_, rfl, .unexpected (n := .leaf _ p start) (.inl rfl)⟩
  | other name =>
    cases h
    exact ⟨_, rfl, .unexpected (n := .leaf _ p start) (.inr ⟨name, rfl⟩)⟩

/-- A call fails by itself, or in its callee or an argument. -/
theorem Node.evalCall_eq_failure {callee : Node} {args : List Node} {start : Option Int}
    {g : Failure}
    (h : (do
      let v ← callee.eval frame
      let f ← Eval.ofResult v.asNative
      let values ← Node.evalAll frame args
      f.call values) m = .error (.failure g) m') :
    (∃ cause, g = .ofCause cause ∧
        Raises frame (.branch .functionCall (callee :: args) start) m cause) ∨
      ∃ c m₁, Calls frame (.branch .functionCall (callee :: args) start) m c m₁ ∧
        c.eval frame m₁ = .error (.failure g) m' := by
  rcases Eval.bind_eq_error_iff.1 h with hcallee | ⟨v, m₁, hcallee, hrest⟩
  · exact .inr ⟨callee, m, .part (by simp) (List.nil_append _).symm rfl nofun, hcallee⟩
  · rcases Eval.bind_eq_error_iff.1 hrest with hnative | ⟨f, m₂, hnative, hrest'⟩
    · obtain ⟨cause, rfl, hcause⟩ := Eval.ofResult_eq_failure hnative
      exact .inl ⟨cause, rfl, .notCallable hcallee hcause⟩
    · obtain ⟨rfl, hf⟩ := Eval.ofResult_eq_ok hnative
      rcases Eval.bind_eq_error_iff.1 hrest' with hargs | ⟨vs, m₃, hargs, hcall⟩
      · obtain ⟨before, c, after, vs, m₃, rfl, hbefore, hc⟩ := Node.evalAll_eq_error_iff.1 hargs
        have hfront : Node.evalAll frame (callee :: before) m = .ok (v :: vs) m₃ := by
          rw [Node.evalAll, Eval.bind_of_ok hcallee, Eval.bind_of_ok hbefore]
          rfl
        refine .inr ⟨c, m₃, .part (by simp) List.cons_append.symm hfront ?_, hc⟩
        rintro - _ ⟨⟩
        exact ⟨f, hf⟩
      · have hcause := (Native.call_eq_failure hcall).1
        rw [hcause] at hcall
        exact .inl ⟨g.cause, hcause, .call hcallee hf hargs hcall⟩

/-- How a node without an evaluation fails. -/
theorem Node.eval_fail_eq_failure {g : Failure}
    (heval : n.eval frame = Eval.locating frame n.start (Eval.fail cause))
    (hraises : Raises frame n m cause) (h : n.eval frame m = .error (.failure g) m') :
    ∃ g₀ : Failure, g = g₀.locate (m'.env.source? frame) n.start ∧
      ∃ cause, g₀ = .ofCause cause ∧ Raises frame n m cause := by
  rw [heval, Eval.locating_eq_failure_iff] at h
  obtain ⟨_, ⟨⟩, rfl⟩ := h
  exact ⟨_, rfl, cause, rfl, hraises⟩

/-- **A node fails by itself or because a child does.** -/
theorem Node.eval_eq_failure {g : Failure} (h : n.eval frame m = .error (.failure g) m') :
    ∃ g₀, g = g₀.locate (m'.env.source? frame) n.start ∧
      ((∃ cause, g₀ = .ofCause cause ∧ Raises frame n m cause) ∨
        ∃ c m₁, Calls frame n m c m₁ ∧ c.eval frame m₁ = .error (.failure g₀) m') := by
  cases n with
  | leaf k p start =>
    rw [Node.eval, Eval.locating_eq_failure_iff] at h
    obtain ⟨g₀, h, rfl⟩ := h
    exact ⟨g₀, rfl, .inl (Node.evalLeaf_eq_failure h)⟩
  | branch k children start =>
    cases k with
    | program | expressions =>
      rw [Node.eval, Eval.locating_eq_failure_iff] at h
      obtain ⟨g₀, h, rfl⟩ := h
      refine ⟨g₀, rfl, .inr ?_⟩
      rcases Eval.bind_eq_error_iff.1 h with h | ⟨vs, m₁, -, h⟩
      · obtain ⟨before, c, after, vs, m₁, rfl, hbefore, hc⟩ := Node.evalAll_eq_error_iff.1 h
        exact ⟨c, m₁, .part (by simp) rfl hbefore nofun, hc⟩
      · cases h
    | functionCall =>
      cases children with
      | nil =>
        rw [Node.eval, Eval.locating_eq_failure_iff] at h
        obtain ⟨g₀, h, -⟩ := h
        cases h
      | cons callee args =>
        rw [Node.eval, Eval.locating_eq_failure_iff] at h
        obtain ⟨g₀, h, rfl⟩ := h
        exact ⟨g₀, rfl, Node.evalCall_eq_failure h⟩
    | binary =>
      rcases children with _ | ⟨lhs, _ | ⟨op, _ | ⟨rhs, _ | ⟨extra, rest⟩⟩⟩⟩
      case cons.cons.cons.nil =>
        rw [Node.eval, Eval.locating_eq_failure_iff] at h
        obtain ⟨g₀, h, rfl⟩ := h
        rcases Eval.bind_eq_error_iff.1 h with h | ⟨symbol, m₁, hsymbol, hbinary⟩
        · exact absurd h Node.operatorSymbol_ne_failure
        · obtain ⟨rfl, p, hop, rfl⟩ := Node.operatorSymbol_eq_ok hsymbol
          exact ⟨g₀, rfl, Node.evalBinary_eq_failure hop hbinary⟩
      all_goals
        rw [Node.eval_binary_of_length_ne (by simp), Eval.locating_eq_failure_iff] at h
        obtain ⟨g₀, h, -⟩ := h
        cases h
    | quoted =>
      rw [Node.eval, Eval.locating_eq_failure_iff] at h
      obtain ⟨g₀, h, -⟩ := h
      cases h
    | parenthesis =>
      cases children with
      | nil =>
        rw [Node.eval, Eval.locating_eq_failure_iff] at h
        obtain ⟨g₀, h, -⟩ := h
        cases h
      | cons inner rest =>
        rw [Node.eval, Eval.locating_eq_failure_iff] at h
        obtain ⟨g₀, h, rfl⟩ := h
        exact ⟨g₀, rfl, .inr ⟨inner, m, .inner, h⟩⟩
    | identifier | integer | float | string =>
      rw [Node.eval, Eval.locating_eq_failure_iff] at h
      obtain ⟨g₀, h, -⟩ := h
      cases h
    | block | propertyAccess | unquote =>
      obtain ⟨g₀, hg, hraises⟩ := Node.eval_fail_eq_failure
        (Node.eval_of_notImplemented (by simp [Node.kind]))
        (.notImplemented (by simp [Node.kind])) h
      exact ⟨g₀, hg, .inl hraises⟩
    | operator =>
      obtain ⟨g₀, hg, hraises⟩ := Node.eval_fail_eq_failure
        (Node.eval_of_unexpected (.inl rfl)) (.unexpected (.inl rfl)) h
      exact ⟨g₀, hg, .inl hraises⟩
    | other name =>
      obtain ⟨g₀, hg, hraises⟩ := Node.eval_fail_eq_failure
        (Node.eval_of_unexpected (.inr ⟨name, rfl⟩)) (.unexpected (.inr ⟨name, rfl⟩)) h
      exact ⟨g₀, hg, .inl hraises⟩

/-! ## One step inward -/

/-- A node that raises a cause fails. -/
theorem Raises.eval (h : Raises frame n m cause) :
    ∃ m', n.eval frame m =
      .error (.failure ((Failure.ofCause cause).locate (m'.env.source? frame) n.start)) m' := by
  cases h with
  | @unbound p start _ h =>
    refine ⟨m, ?_⟩
    rw [Node.eval, Eval.locating_eq_failure_iff]
    refine ⟨_, ?_, rfl⟩
    show Eval.lookup frame p m = _
    rw [Eval.lookup_apply, h]
  | @notCallable callee args start _ m' v _ hcallee h =>
    refine ⟨m', ?_⟩
    rw [Node.eval, Eval.locating_eq_failure_iff]
    refine ⟨_, ?_, rfl⟩
    rw [Eval.bind_of_ok hcallee, h]
    rfl
  | @call callee args start _ m₁ m₂ m₃ v f vs _ hcallee hf hargs h =>
    refine ⟨m₃, ?_⟩
    rw [Node.eval, Eval.locating_eq_failure_iff]
    refine ⟨_, ?_, rfl⟩
    rw [Eval.bind_of_ok hcallee, hf, Eval.ofResult, pure_bind, Eval.bind_of_ok hargs, h]
  | @target lhs op rhs start _ p hop hassign h =>
    refine ⟨m, ?_⟩
    rw [Node.eval_binary hop, Eval.locating_eq_failure_iff]
    refine ⟨_, ?_, rfl⟩
    rw [Node.evalBinary, if_pos hassign]
    exact Eval.bind_of_error (Node.assignmentTarget_of_kind h)
  | @operator lhs op rhs start _ m₁ m₂ p l r _ hop hstrict hl hr h =>
    refine ⟨m₂, ?_⟩
    rw [Node.eval_binary hop, Eval.locating_eq_failure_iff]
    refine ⟨_, ?_, rfl⟩
    simp only [List.mem_cons, List.not_mem_nil, or_false, not_or] at hstrict
    rw [Node.evalBinary, if_neg hstrict.1, if_neg hstrict.2.1, if_neg hstrict.2.2,
      Eval.bind_of_ok hl, Eval.bind_of_ok hr, h]
    rfl
  | notImplemented h =>
    refine ⟨m, ?_⟩
    rw [Node.eval_of_notImplemented h, Eval.locating_eq_failure_iff]
    exact ⟨_, rfl, rfl⟩
  | unexpected h =>
    refine ⟨m, ?_⟩
    rw [Node.eval_of_unexpected h, Eval.locating_eq_failure_iff]
    exact ⟨_, rfl, rfl⟩

/-- A node fails if the evaluation that it comes to does. -/
theorem Calls.eval {g : Failure} (h : Calls frame n m c m₁)
    (hc : c.eval frame m₁ = .error (.failure g) m') :
    n.eval frame m = .error (.failure (g.locate (m'.env.source? frame) n.start)) m' := by
  cases h with
  | @part k _ before after _ start _ _ vs hk hchildren hbefore hcallee =>
    subst hchildren
    have hall : Node.evalAll frame (before ++ c :: after) m = .error (.failure g) m' :=
      Node.evalAll_eq_error_iff.2 ⟨before, c, after, vs, m₁, rfl, hbefore, hc⟩
    simp only [List.mem_cons, List.not_mem_nil, or_false] at hk
    rcases hk with rfl | rfl | rfl
    · rw [Node.eval, Eval.locating_eq_failure_iff]
      exact ⟨g, Eval.bind_of_error hall, rfl⟩
    · rw [Node.eval, Eval.locating_eq_failure_iff]
      exact ⟨g, Eval.bind_of_error hall, rfl⟩
    · cases before with
      | nil =>
        cases hbefore
        rw [List.nil_append, Node.eval, Eval.locating_eq_failure_iff]
        exact ⟨g, Eval.bind_of_error hc, rfl⟩
      | cons callee before =>
        obtain ⟨v, m₂, us, rfl, hv, hus⟩ := Node.evalAll_cons_eq_ok hbefore
        obtain ⟨f, hf⟩ := hcallee rfl v rfl
        have hargs : Node.evalAll frame (before ++ c :: after) m₂ = .error (.failure g) m' :=
          Node.evalAll_eq_error_iff.2 ⟨before, c, after, us, m₁, rfl, hus, hc⟩
        rw [List.cons_append, Node.eval, Eval.locating_eq_failure_iff]
        refine ⟨g, ?_, rfl⟩
        rw [Eval.bind_of_ok hv, hf, Eval.ofResult, pure_bind]
        exact Eval.bind_of_error hargs
  | inner =>
    rw [Node.eval, Eval.locating_eq_failure_iff]
    exact ⟨g, hc, rfl⟩
  | @assigned p p' op rhs place start _ hop hassign =>
    rw [Node.eval_binary hop, Eval.locating_eq_failure_iff]
    refine ⟨g, ?_, rfl⟩
    rw [Node.evalBinary, if_pos hassign, Node.assignmentTarget, pure_bind]
    exact Eval.bind_of_error hc
  | left hop hassign =>
    rw [Node.eval_binary hop, Eval.locating_eq_failure_iff]
    refine ⟨g, ?_, rfl⟩
    rw [Node.evalBinary, if_neg hassign]
    split
    · exact Eval.bind_of_error hc
    · split
      · exact Eval.bind_of_error hc
      · exact Eval.bind_of_error hc
  | right hop hassign hl hand hor =>
    rw [Node.eval_binary hop, Eval.locating_eq_failure_iff]
    refine ⟨g, ?_, rfl⟩
    rw [Node.evalBinary, if_neg hassign]
    split
    · next h =>
      rw [Eval.bind_of_ok hl, if_pos (hand h)]
      exact hc
    · split
      · next h =>
        rw [Eval.bind_of_ok hl, if_neg (Bool.eq_false_iff.1 (hor h))]
        exact hc
      · rw [Eval.bind_of_ok hl]
        exact Eval.bind_of_error hc

/-! ## Places -/

@[simp] theorem Failure.cause_locate (g : Failure) (source : Option String) (start : Option Int) :
    (g.locate source start).cause = g.cause := by
  rw [Failure.locate.eq_def]
  split
  · split
    · rfl
    · rfl
  · rfl

/-- A failure with the place of a path gets that of the path with one more node. -/
theorem locate_placeOn (cause : Cause) (source : Option String) (path : List Node) (n : Node) :
    (⟨cause, placeOn source path⟩ : Failure).locate source n.start =
      ⟨cause, placeOn source (path ++ [n])⟩ := by
  rw [placeOn, placeOn, List.findSome?_append, List.findSome?_singleton]
  cases hpath : path.findSome? (·.position? source) with
  | some q => rfl
  | none =>
    rw [Option.none_or, Node.position?, Failure.locate.eq_def]
    cases source with
    | none => cases n.start <;> rfl
    | some text =>
      cases n.start with
      | none => rfl
      | some offset =>
        show _ = (⟨cause, ((Position.ofOffset? text offset).map Place.ofPosition).getD .unknown⟩ :
          Failure)
        cases hq : Position.ofOffset? text offset with
        | none => simp [Place.unknown, hq]
        | some q => simp [Place.unknown, hq]

theorem ofCause_eq_placeOn (cause : Cause) (source : Option String) :
    Failure.ofCause cause = ⟨cause, placeOn source []⟩ :=
  rfl

/-! ## Whole paths -/

theorem Calls.mem_children (h : Calls frame n m c m₁) : c ∈ n.children := by
  cases h with
  | part _ hchildren =>
    rw [Node.children, hchildren]
    exact List.mem_append_right _ List.mem_cons_self
  | inner => exact List.mem_cons_self
  | assigned => exact List.mem_cons_of_mem _ (List.mem_cons_of_mem _ List.mem_cons_self)
  | left => exact List.mem_cons_self
  | right => exact List.mem_cons_of_mem _ (List.mem_cons_of_mem _ List.mem_cons_self)

theorem Node.sizeOf_lt_of_mem_children (h : c ∈ n.children) : sizeOf c < sizeOf n := by
  cases n with
  | leaf => exact absurd h List.not_mem_nil
  | branch k cs start =>
    have hlt := List.sizeOf_lt_of_mem (show c ∈ cs from h)
    rw [Node.branch.sizeOf_spec]
    omega

/-- Evaluation changes no source on its way to a child. -/
theorem Calls.source?_eq (h : Calls frame n m c m₁) :
    m₁.env.source? frame = m.env.source? frame := by
  have hkeeps := Machine.stable_hasSourcesOf frame m.env
  cases h with
  | part _ _ hbefore _ =>
    exact ((Node.evalAll_leaves hkeeps _).of_ok (fun _ => rfl) hbefore).1 frame
  | inner => rfl
  | assigned => rfl
  | left => rfl
  | right _ _ hl _ _ => exact ((Node.eval_leaves hkeeps _).of_ok (fun _ => rfl) hl).1 frame

theorem Node.source?_of_eval_error {i : Interrupt} (h : n.eval frame m = .error i m') :
    m'.env.source? frame = m.env.source? frame :=
  ((n.hasSourcesOf_eval frame m.env).of_error (fun _ => rfl) h).1 frame

/-- A tree that fails does so along a path, and its failure has the place of that path. -/
theorem exists_failsAlong {g : Failure} (h : n.eval frame m = .error (.failure g) m') :
    ∃ path, FailsAlong frame n m path g.cause ∧ g.place = placeOn (m.env.source? frame) path := by
  induction hsize : sizeOf n using Nat.strongRecOn generalizing n m g with
  | ind size ih =>
    have hsource := Node.source?_of_eval_error h
    obtain ⟨g₀, rfl, hcase⟩ := Node.eval_eq_failure h
    rw [hsource, Failure.cause_locate]
    rcases hcase with ⟨cause, rfl, hraises⟩ | ⟨c, m₁, hcall, hc⟩
    · refine ⟨[n], .here hraises, ?_⟩
      rw [ofCause_eq_placeOn cause (m.env.source? frame), locate_placeOn]
      rfl
    · have hlt := Node.sizeOf_lt_of_mem_children hcall.mem_children
      obtain ⟨path, hpath, hplace⟩ := ih (sizeOf c) (hsize ▸ hlt) hc rfl
      refine ⟨path ++ [n], .within hcall hpath, ?_⟩
      rw [hcall.source?_eq] at hplace
      rw [show g₀ = ⟨g₀.cause, placeOn (m.env.source? frame) path⟩ from
        hplace ▸ rfl, locate_placeOn]

/-- A tree that has a failing path fails, at the place of the path. -/
theorem FailsAlong.eval (h : FailsAlong frame n m path cause) :
    ∃ m', n.eval frame m = .error (.failure ⟨cause, placeOn (m.env.source? frame) path⟩) m' := by
  induction h with
  | @here n m cause hraises =>
    obtain ⟨m', heval⟩ := hraises.eval
    refine ⟨m', ?_⟩
    rw [heval, Node.source?_of_eval_error heval,
      ofCause_eq_placeOn cause (m.env.source? frame), locate_placeOn]
    rfl
  | @within n c m m₁ path cause hcall _ ih =>
    obtain ⟨m', hc⟩ := ih
    have heval := hcall.eval hc
    refine ⟨m', ?_⟩
    rw [heval, Node.source?_of_eval_error heval, hcall.source?_eq, locate_placeOn]

/-- **A tree fails exactly along a failing path**, and its failure has the place of that path. -/
theorem Node.eval_eq_failure_iff {g : Failure} :
    (∃ m', n.eval frame m = .error (.failure g) m') ↔
      ∃ path, FailsAlong frame n m path g.cause ∧
        g.place = placeOn (m.env.source? frame) path := by
  constructor
  · rintro ⟨m', h⟩
    exact exists_failsAlong h
  · rintro ⟨path, hpath, hplace⟩
    obtain ⟨m', h⟩ := hpath.eval
    exact ⟨m', by rw [h, ← hplace]⟩

/-! ## There is only one path -/

/-- A row of trees cannot have values beyond the tree that interrupts it. -/
theorem Node.not_evalAll_of_error {before after : List Node} {vs ws : List Value} {i : Interrupt}
    (hbefore : Node.evalAll frame before m = .ok vs m₁) (hc : c.eval frame m₁ = .error i m') :
    Node.evalAll frame (before ++ c :: after) m ≠ .ok ws m₂ := by
  intro h
  rw [Node.evalAll_eq_error_iff.2 ⟨before, c, after, vs, m₁, rfl, hbefore, hc⟩] at h
  cases h

/-- A node that raises a cause has come through all its children. -/
theorem Raises.not_error {i : Interrupt} (h : Raises frame n m cause)
    (hcall : Calls frame n m c m₁) : c.eval frame m₁ ≠ .error i m' := by
  intro hc
  cases h with
  | unbound => cases hcall
  | @notCallable callee args _ _ m' v _ hv hcause =>
    cases hcall with
    | @part _ _ before _ _ _ _ _ vs _ hchildren hbefore hcallee =>
      cases before with
      | nil =>
        cases hbefore
        obtain ⟨rfl, -⟩ := List.cons.inj hchildren
        rw [hv] at hc
        cases hc
      | cons b before =>
        obtain ⟨rfl, -⟩ := List.cons.inj hchildren
        obtain ⟨v', m₂, us, rfl, hv', -⟩ := Node.evalAll_cons_eq_ok hbefore
        rw [hv] at hv'
        cases hv'
        obtain ⟨f, hf⟩ := hcallee rfl v rfl
        rw [hcause] at hf
        cases hf
  | @call callee args _ _ _ _ _ v f vs _ hv hf hargs _ =>
    cases hcall with
    | @part _ _ before _ _ _ _ _ vs _ hchildren hbefore hcallee =>
      cases before with
      | nil =>
        cases hbefore
        obtain ⟨rfl, -⟩ := List.cons.inj hchildren
        rw [hv] at hc
        cases hc
      | cons b before =>
        obtain ⟨rfl, rfl⟩ := List.cons.inj hchildren
        obtain ⟨v', m₂, us, rfl, hv', hus⟩ := Node.evalAll_cons_eq_ok hbefore
        rw [hv] at hv'
        cases hv'
        exact Node.not_evalAll_of_error hus hc hargs
  | target hop hassign hkind =>
    cases hcall with
    | part hk => exact absurd hk (by decide)
    | assigned => exact hkind rfl
    | left hop' hassign' | right hop' hassign' =>
      cases hop.symm.trans hop'
      exact hassign' hassign
  | operator hop hstrict hl hr _ =>
    cases hcall with
    | part hk => exact absurd hk (by decide)
    | assigned hop' hassign' =>
      cases hop.symm.trans hop'
      exact hstrict (by rw [hassign']; decide)
    | left =>
      rw [hl] at hc
      cases hc
    | right _ _ hl' =>
      rw [hl] at hl'
      cases hl'
      rw [hr] at hc
      cases hc
  | notImplemented hk =>
    cases hcall with
    | part hk' =>
      simp only [Node.kind, List.mem_cons, List.not_mem_nil, or_false] at hk hk'
      rcases hk' with rfl | rfl | rfl <;> simp at hk
    | inner | assigned | left | right => exact absurd hk (by simp [Node.kind])
  | unexpected hk =>
    cases hcall with
    | part hk' =>
      simp only [Node.kind, List.mem_cons, List.not_mem_nil, or_false] at hk hk'
      rcases hk' with rfl | rfl | rfl <;> simp at hk
    | inner | assigned | left | right => exact absurd hk (by simp [Node.kind])

/-- A node comes to one child only that is interrupted. -/
theorem Calls.unique {i j : Interrupt} (h : Calls frame n m c m₁)
    (hc : c.eval frame m₁ = .error i m') (h' : Calls frame n m d m₂) {m₃ : Machine}
    (hd : d.eval frame m₂ = .error j m₃) : c = d ∧ m₁ = m₂ := by
  cases h with
  | @part k _ before after _ start _ _ vs hk hchildren hbefore hcallee =>
    cases h' with
    | @part _ _ before' after' _ _ _ _ vs' _ hchildren' hbefore' hcallee' =>
      rcases List.append_eq_append_iff.1 (hchildren.symm.trans hchildren') with
        ⟨w, rfl, hw⟩ | ⟨w, rfl, hw⟩
      · cases w with
        | nil =>
          obtain ⟨rfl, -⟩ := List.cons.inj hw
          rw [List.append_nil, hbefore] at hbefore'
          cases hbefore'
          exact ⟨rfl, rfl⟩
        | cons e w =>
          obtain ⟨rfl, -⟩ := List.cons.inj hw
          exact absurd hbefore' (Node.not_evalAll_of_error hbefore hc)
      · cases w with
        | nil =>
          obtain ⟨rfl, -⟩ := List.cons.inj hw
          rw [List.append_nil, hbefore'] at hbefore
          cases hbefore
          exact ⟨rfl, rfl⟩
        | cons e w =>
          obtain ⟨rfl, -⟩ := List.cons.inj hw
          exact absurd hbefore (Node.not_evalAll_of_error hbefore' hd)
    | inner | assigned | left | right => exact absurd hk (by decide)
  | inner =>
    cases h' with
    | part hk' => exact absurd hk' (by decide)
    | inner => exact ⟨rfl, rfl⟩
  | assigned hop hassign =>
    cases h' with
    | part hk' => exact absurd hk' (by decide)
    | assigned => exact ⟨rfl, rfl⟩
    | left hop' hassign' | right hop' hassign' =>
      cases hop.symm.trans hop'
      exact absurd hassign hassign'
  | left hop hassign =>
    cases h' with
    | part hk' => exact absurd hk' (by decide)
    | assigned hop' hassign' =>
      cases hop.symm.trans hop'
      exact absurd hassign' hassign
    | left => exact ⟨rfl, rfl⟩
    | right _ _ hl =>
      rw [hl] at hc
      cases hc
  | right hop hassign hl _ _ =>
    cases h' with
    | part hk' => exact absurd hk' (by decide)
    | assigned hop' hassign' =>
      cases hop.symm.trans hop'
      exact absurd hassign' hassign
    | left =>
      rw [hl] at hd
      cases hd
    | right _ _ hl' =>
      rw [hl] at hl'
      cases hl'
      exact ⟨rfl, rfl⟩

/-- **A tree fails along one path only.** -/
theorem FailsAlong.unique (h : FailsAlong frame n m path cause)
    (h' : FailsAlong frame n m path' cause') : path = path' ∧ cause = cause' := by
  induction h generalizing path' with
  | @here n m cause hraises =>
    cases h' with
    | here hraises' =>
      obtain ⟨m', heval⟩ := hraises.eval
      obtain ⟨m'', heval'⟩ := hraises'.eval
      rw [heval] at heval'
      have hcause :=
        congrArg Failure.cause (Interrupt.failure.inj (EStateM.Result.error.inj heval').1)
      rw [Failure.cause_locate, Failure.cause_locate] at hcause
      exact ⟨rfl, hcause⟩
    | within hcall' hc' =>
      obtain ⟨m'', hc'⟩ := hc'.eval
      exact absurd hc' (hraises.not_error hcall')
  | @within n c m m₁ path cause hcall hc ih =>
    obtain ⟨m', heval⟩ := hc.eval
    cases h' with
    | here hraises' => exact absurd heval (hraises'.not_error hcall)
    | within hcall' hc' =>
      obtain ⟨m'', heval'⟩ := hc'.eval
      obtain ⟨rfl, rfl⟩ := hcall.unique heval hcall' heval'
      obtain ⟨rfl, rfl⟩ := ih hc'
      exact ⟨rfl, rfl⟩

/-! ## The nodes on a path -/

/-- Only some kinds of nodes raise a cause. -/
theorem Raises.isRaisedBy (h : Raises frame n m cause) : cause.isRaisedBy n.kind = true := by
  cases h with
  | unbound => rfl
  | @notCallable _ _ _ _ _ v _ _ hcause =>
    cases v with
    | native f => cases hcause
    | _ =>
      cases hcause
      rfl
  | call _ _ _ hcall => exact (Native.call_eq_failure hcall).2
  | target => rfl
  | operator _ _ _ _ hcause => rcases applyOperator_eq_error hcause with rfl | rfl <;> rfl
  | notImplemented hk =>
    rw [Cause.isRaisedBy, decide_eq_true rfl, Bool.true_and]
    exact List.contains_iff_mem.2 hk
  | unexpected hk => exact decide_eq_true rfl

/-- A path begins with the node that raises the cause. -/
theorem FailsAlong.exists_raises (h : FailsAlong frame n m path cause) :
    ∃ raiser outer m', path = raiser :: outer ∧ Raises frame raiser m' cause := by
  induction h with
  | here hraises => exact ⟨_, [], _, rfl, hraises⟩
  | within _ _ ih =>
    obtain ⟨raiser, outer, m', rfl, hraises⟩ := ih
    exact ⟨raiser, _, m', rfl, hraises⟩

namespace Node

mutual

/-- The nodes of a tree that do not lie in a quotation, but may be one. -/
def exposed : Node → List Node
  | leaf k p s => [leaf k p s]
  | branch k cs s => branch k cs s :: if k = .quoted then [] else exposedOfAll cs

/-- The nodes of some trees that do not lie in a quotation. -/
def exposedOfAll : List Node → List Node
  | [] => []
  | n :: ns => exposed n ++ exposedOfAll ns

end

theorem mem_exposed_self (n : Node) : n ∈ n.exposed := by
  cases n with
  | leaf => exact List.mem_cons_self
  | branch => exact List.mem_cons_self

theorem mem_exposedOfAll {ns : List Node} : d ∈ exposedOfAll ns ↔ ∃ n ∈ ns, d ∈ n.exposed := by
  induction ns with
  | nil => simp [exposedOfAll]
  | cons n ns ih => simp [exposedOfAll, ih]

mutual

theorem mem_subtrees_of_mem_exposed : ∀ {n : Node}, d ∈ n.exposed → d ∈ n.subtrees
  | leaf _ _ _, h => h
  | branch k cs s, h => by
    rw [exposed] at h
    rw [subtrees]
    rcases List.mem_cons.1 h with rfl | h
    · exact List.mem_cons_self
    · split at h
      · exact absurd h List.not_mem_nil
      · exact List.mem_cons_of_mem _ (mem_subtreesOfAll_of_mem_exposedOfAll h)

theorem mem_subtreesOfAll_of_mem_exposedOfAll :
    ∀ {ns : List Node}, d ∈ exposedOfAll ns → d ∈ subtreesOfAll ns
  | [], h => h
  | n :: ns, h => by
    rw [exposedOfAll] at h
    rw [subtreesOfAll]
    rcases List.mem_append.1 h with h | h
    · exact List.mem_append_left _ (mem_subtrees_of_mem_exposed h)
    · exact List.mem_append_right _ (mem_subtreesOfAll_of_mem_exposedOfAll h)

end

theorem mem_exposed_of_child (hkind : n.kind ≠ .quoted) (hc : c ∈ n.children)
    (hd : d ∈ c.exposed) : d ∈ n.exposed := by
  cases n with
  | leaf => exact absurd hc List.not_mem_nil
  | branch k cs s =>
    rw [exposed, if_neg (show k ≠ .quoted from hkind)]
    exact List.mem_cons_of_mem _ (mem_exposedOfAll.2 ⟨c, hc, hd⟩)

end Node

theorem Calls.kind_ne_quoted (h : Calls frame n m c m₁) : n.kind ≠ .quoted := by
  cases h with
  | part hk =>
    rintro rfl
    exact absurd hk (by decide)
  | inner | assigned | left | right => exact nofun

/-- No node on a path lies in a quotation. -/
theorem FailsAlong.mem_exposed (h : FailsAlong frame n m path cause) :
    ∀ p ∈ path, p ∈ n.exposed := by
  induction h with
  | @here n => exact List.forall_mem_singleton.2 n.mem_exposed_self
  | @within n c _ _ _ _ hcall _ ih =>
    refine List.forall_mem_append.2 ⟨fun p hp => ?_, List.forall_mem_singleton.2 n.mem_exposed_self⟩
    exact Node.mem_exposed_of_child hcall.kind_ne_quoted hcall.mem_children (ih p hp)

end Juxta
