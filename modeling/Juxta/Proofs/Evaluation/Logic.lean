import Juxta.Proofs.Evaluation.Unplaced

/-!
# What an evaluation comes to

A small program logic for evaluations.  `Eval.Keeps P Q I x` says what comes of running `x`: from a
machine that satisfies `P` it comes to one that does, and either yields a value that satisfies `Q`,
or is interrupted in a way that satisfies `I`.

## What is here

* `Eval.bind_eq_ok_iff`, `Eval.bind_eq_error_iff` — how one computation after another ends.
* `Node.evalAll_eq_error_iff` — how a row of trees is interrupted.
* `Eval.Keeps`, with one rule for each way of putting evaluations together.
* `Node.eval_leaves` — evaluating a tree does nothing to the machine but defining and printing;
  `Node.hasSourcesOf_eval` — in particular, it changes no source.
-/

set_option autoImplicit false
namespace Juxta

namespace Eval

variable {α β : Type} {x : Eval α} {f : α → Eval β} {m m' : Machine} {P : Machine → Prop}
  {Q R : α → Prop} {S : β → Prop} {I : Interrupt → Prop}

/-! ## One computation after another -/

theorem bind_eq_ok_iff {b : β} :
    (x >>= f) m = .ok b m' ↔ ∃ a m₁, x m = .ok a m₁ ∧ f a m₁ = .ok b m' := by
  show EStateM.bind x f m = _ ↔ _
  rw [EStateM.bind]
  cases x m with
  | ok a m₁ =>
    refine ⟨fun h => ⟨a, m₁, rfl, h⟩, ?_⟩
    rintro ⟨_, _, ⟨⟩, h⟩
    exact h
  | error i m₁ => simp

theorem bind_eq_error_iff {i : Interrupt} :
    (x >>= f) m = .error i m' ↔
      x m = .error i m' ∨ ∃ a m₁, x m = .ok a m₁ ∧ f a m₁ = .error i m' := by
  show EStateM.bind x f m = _ ↔ _
  rw [EStateM.bind]
  cases x m with
  | ok a m₁ =>
    refine ⟨fun h => .inr ⟨a, m₁, rfl, h⟩, ?_⟩
    rintro (⟨⟨⟩⟩ | ⟨_, _, ⟨⟩, h⟩)
    exact h
  | error i m₁ => simp

theorem bind_of_ok {a : α} (h : x m = .ok a m') : (x >>= f) m = f a m' := by
  show EStateM.bind x f m = f a m'
  rw [EStateM.bind, h]

theorem bind_of_error {i : Interrupt} (h : x m = .error i m') : (x >>= f) m = .error i m' := by
  show EStateM.bind x f m = .error i m'
  rw [EStateM.bind, h]

/-- A failure leaves a node with the place that the node gives it. -/
theorem locating_eq_failure_iff {frame : Nat} {start : Option Int} {g : Failure} :
    Eval.locating frame start x m = .error (.failure g) m' ↔
      ∃ g₀, x m = .error (.failure g₀) m' ∧ g = g₀.locate (m'.env.source? frame) start := by
  rw [Eval.locating]
  cases x m with
  | ok a m₁ => simp
  | error i m₁ =>
    cases i with
    | failure g₀ =>
      refine ⟨fun h => ?_, ?_⟩
      · cases h
        exact ⟨g₀, rfl, rfl⟩
      · rintro ⟨_, ⟨⟩, rfl⟩
        rfl
    | exit code => simp
    | defect d => simp

/-! ## The logic -/

/-- From a machine that satisfies `P` the evaluation comes to one that does.  It yields a value that
satisfies `Q`, or an interrupt that satisfies `I`. -/
def Keeps (P : Machine → Prop) (Q : α → Prop) (I : Interrupt → Prop) (x : Eval α) : Prop :=
  ∀ m, P m →
    match x m with
    | .ok a m' => P m' ∧ Q a
    | .error i m' => P m' ∧ I i

namespace Keeps

theorem of_ok {a : α} (h : Keeps P Q I x) (hm : P m) (hx : x m = .ok a m') : P m' ∧ Q a := by
  have hkeeps := h m hm
  rwa [hx] at hkeeps

theorem of_error {i : Interrupt} (h : Keeps P Q I x) (hm : P m) (hx : x m = .error i m') :
    P m' ∧ I i := by
  have hkeeps := h m hm
  rwa [hx] at hkeeps

theorem pure {a : α} (h : Q a) : Keeps P Q I (Pure.pure a) :=
  fun _ hm => ⟨hm, h⟩

theorem bind (h : Keeps P Q I x) (hf : ∀ a, Q a → Keeps P S I (f a)) :
    Keeps P S I (x >>= f) := by
  intro m hm
  have hkeeps := h m hm
  show match EStateM.bind x f m with
    | .ok b m' => P m' ∧ S b
    | .error i m' => P m' ∧ I i
  rw [EStateM.bind]
  cases hx : x m with
  | ok a m₁ =>
    rw [hx] at hkeeps
    exact hf a hkeeps.2 m₁ hkeeps.1
  | error i m₁ =>
    rw [hx] at hkeeps
    exact hkeeps

theorem throw {i : Interrupt} (h : I i) : Keeps P Q I (MonadExcept.throw i) :=
  fun _ hm => ⟨hm, h⟩

theorem fail {cause : Cause} (h : I (.failure (.ofCause cause))) : Keeps P Q I (Eval.fail cause) :=
  throw h

theorem ofResult {r : Except Cause α} (hok : ∀ a, r = .ok a → Q a)
    (herror : ∀ cause, r = .error cause → I (.failure (.ofCause cause))) :
    Keeps P Q I (Eval.ofResult r) := by
  cases r with
  | ok a => exact .pure (hok a rfl)
  | error cause => exact .fail (herror cause rfl)

/-- A change of the machine. -/
theorem ofChange {change : Machine → Machine} (h : ∀ m, P m → P (change m)) :
    Keeps P (fun _ => True) I (modify change) :=
  fun m hm => ⟨h m hm, trivial⟩

/-- Giving a failure its place. -/
theorem locating {frame : Nat} {start : Option Int} (h : Keeps P Q I x)
    (hI : ∀ f source, I (.failure f) → I (.failure (f.locate source start))) :
    Keeps P Q I (Eval.locating frame start x) := by
  intro m hm
  have hkeeps := h m hm
  rw [Eval.locating]
  cases hx : x m with
  | ok a m' =>
    rw [hx] at hkeeps
    exact hkeeps
  | error i m' =>
    rw [hx] at hkeeps
    cases i with
    | failure f => exact ⟨hkeeps.1, hI f _ hkeeps.2⟩
    | exit code => exact hkeeps
    | defect d => exact hkeeps

theorem evalAll {frame : Nat} {ns : List Node} {Q : Value → Prop}
    (h : ∀ n ∈ ns, Keeps P Q I (n.eval frame)) :
    Keeps P (fun vs => ∀ v ∈ vs, Q v) I (Node.evalAll frame ns) := by
  induction ns with
  | nil =>
    rw [Node.evalAll]
    exact .pure (List.forall_mem_nil _)
  | cons n ns ih =>
    obtain ⟨hn, hns⟩ := List.forall_mem_cons.1 h
    rw [Node.evalAll]
    exact hn.bind fun v hv => (ih hns).bind fun vs hvs => .pure (List.forall_mem_cons.2 ⟨hv, hvs⟩)

/-- An operator between two operands. -/
theorem evalBinary {frame : Nat} {symbol : String} {target : Node} {left right : Eval Value}
    {Q : Value → Prop} {T : Node.Payload → Prop} (hnil : Q .nil)
    (htarget : Keeps P T I (Node.assignmentTarget target))
    (hdefine : symbol = ":=" → ∀ p v, T p → Q v →
      Keeps P (fun _ => True) I (Eval.define frame p v))
    (hl : Keeps P Q I left) (hr : Keeps P Q I right)
    (hop : ∀ l r, Q l → Q r → Keeps P Q I (Eval.ofResult (applyOperator symbol l r))) :
    Keeps P Q I (Node.evalBinary frame symbol target left right) := by
  rw [Node.evalBinary]
  split
  · next hassign =>
    exact htarget.bind fun p hp => hr.bind fun v hv =>
      (hdefine hassign p v hp hv).bind fun _ _ => .pure hnil
  · split
    · refine hl.bind fun v hv => ?_
      split
      · exact hr
      · exact .pure hv
    · split
      · refine hl.bind fun v hv => ?_
        split
        · exact .pure hv
        · exact hr
      · exact hl.bind fun l hv => hr.bind fun r hw => hop l r hv hw

end Keeps
end Eval

/-- The last of some values, or nil, is as they all are. -/
theorem getLast_keeps {Q : Value → Prop} {vs : List Value} (hnil : Q .nil)
    (hvs : ∀ v ∈ vs, Q v) : Q (vs.getLast?.getD .nil) := by
  cases hlast : vs.getLast? with
  | none => exact hnil
  | some v => exact hvs v (List.mem_of_getLast? hlast)

theorem Failure.locate_none (f : Failure) (source : Option String) : f.locate source none = f := by
  rw [locate.eq_def]
  split
  · contradiction
  · rfl

/-- Without an offset, a failure gets no place. -/
theorem Eval.locating_none {α : Type} (frame : Nat) (act : Eval α) :
    Eval.locating frame none act = act := by
  funext m
  rw [Eval.locating]
  split
  · next f m' hact => rw [hact, Failure.locate_none]
  · rfl

/-! ## Trees in a row -/

namespace Node

variable {frame : Nat} {ns ms : List Node} {m m' : Machine}

theorem evalAll_append (frame : Nat) (ns ms : List Node) :
    evalAll frame (ns ++ ms) = (do
      let vs ← evalAll frame ns
      let ws ← evalAll frame ms
      return vs ++ ws) := by
  induction ns with
  | nil => simp [evalAll]
  | cons n ns ih => simp [evalAll, ih]

theorem evalAll_cons_eq_ok {n : Node} {vs : List Value}
    (h : evalAll frame (n :: ns) m = .ok vs m') :
    ∃ v m₁ us, vs = v :: us ∧ n.eval frame m = .ok v m₁ ∧ evalAll frame ns m₁ = .ok us m' := by
  rw [evalAll] at h
  obtain ⟨v, m₁, hv, h⟩ := Eval.bind_eq_ok_iff.1 h
  obtain ⟨us, m₂, hus, h⟩ := Eval.bind_eq_ok_iff.1 h
  cases h
  exact ⟨v, m₁, us, rfl, hv, hus⟩

/-- A row of trees is interrupted by the first that is, after those before it. -/
theorem evalAll_eq_error_iff {i : Interrupt} :
    evalAll frame ns m = .error i m' ↔
      ∃ before n after vs m₁, ns = before ++ n :: after ∧ evalAll frame before m = .ok vs m₁ ∧
        n.eval frame m₁ = .error i m' := by
  constructor
  · intro h
    induction ns generalizing m with
    | nil => cases h
    | cons n ns ih =>
      rw [evalAll, Eval.bind_eq_error_iff] at h
      rcases h with h | ⟨v, m₁, hv, h⟩
      · exact ⟨[], n, ns, [], m, rfl, rfl, h⟩
      · rcases Eval.bind_eq_error_iff.1 h with h | ⟨vs, m₂, -, h⟩
        · obtain ⟨before, n', after, vs, m₂, rfl, hbefore, herror⟩ := ih h
          refine ⟨n :: before, n', after, v :: vs, m₂, rfl, ?_, herror⟩
          rw [evalAll, Eval.bind_of_ok hv, Eval.bind_of_ok hbefore]
          rfl
        · cases h
  · rintro ⟨before, n, after, vs, m₁, rfl, hbefore, herror⟩
    rw [evalAll_append, Eval.bind_of_ok hbefore]
    refine Eval.bind_of_error ?_
    rw [evalAll]
    exact Eval.bind_of_error herror

end Node

/-! ## All trees -/

/-- Looking up a name does not change the machine. -/
theorem Eval.lookup_apply (frame : Nat) (p : Node.Payload) (m : Machine) :
    Eval.lookup frame p m =
      match p.name?.bind (m.env.get? frame) with
      | some v => .ok v m
      | none => .error (.failure (.ofCause (.unbound p.plain))) m := by
  show (match p.name?.bind (m.env.get? frame) with
    | some v => pure v
    | none => Eval.fail (.unbound p.plain) : Eval Value) m = _
  cases p.name?.bind (m.env.get? frame) with
  | none => rfl
  | some v => rfl

/-- An operator that does not have three children is a defect. -/
theorem Node.eval_binary_of_length_ne {frame : Nat} {children : List Node} {start : Option Int}
    (h : children.length ≠ 3) :
    (Node.branch .binary children start).eval frame =
      Eval.locating frame start (throw (.defect (.operandCount children.length))) := by
  rw [Node.eval]
  rintro lhs operator rhs rfl
  exact h rfl

section

variable {frame : Nat} {P : Machine → Prop}

/-- Whatever comes of the computation, the machine keeps the property. -/
abbrev Eval.Leaves {α : Type} (P : Machine → Prop) (x : Eval α) : Prop :=
  x.Keeps P (fun _ => True) (fun _ => True)

namespace Eval.Leaves

theorem lookup (p : Node.Payload) : Leaves P (Eval.lookup frame p) := by
  intro m hm
  rw [Eval.lookup_apply]
  cases p.name?.bind (m.env.get? frame) with
  | none => exact ⟨hm, trivial⟩
  | some v => exact ⟨hm, trivial⟩

theorem ofResult {α : Type} (r : Except Cause α) : Leaves P (Eval.ofResult r) :=
  Keeps.ofResult (fun _ _ => trivial) fun _ _ => trivial

theorem evalLeaf (kind : Node.Kind) (payload : Node.Payload) (start : Option Int) :
    Leaves P (Node.evalLeaf frame kind payload start) := by
  cases kind with
  | identifier => exact lookup payload
  | integer | float | string | program | expressions | quoted => exact .pure trivial
  | functionCall | binary | parenthesis => exact .throw trivial
  | block | propertyAccess | unquote | operator | other name => exact .fail trivial

theorem assignmentTarget (target : Node) : Leaves P (Node.assignmentTarget target) := by
  rw [Node.assignmentTarget.eq_def]
  split
  · exact .pure trivial
  · exact .throw trivial
  · exact .fail trivial

theorem operatorSymbol (operator : Node) : Leaves P (Node.operatorSymbol operator) := by
  rw [Node.operatorSymbol]
  split
  · exact .pure trivial
  · exact .throw trivial

end Eval.Leaves

/-- A native function does nothing to the machine but printing. -/
theorem Action.run_leaves (hprint : ∀ m vs, P m → P { m with printed := vs :: m.printed })
    (name : String) (args : List Value) (action : Action) :
    Eval.Leaves P (action.run name args) := by
  cases action with
  | printLine => exact (Eval.Keeps.ofChange fun m => hprint m args).bind fun _ _ => .pure trivial
  | quit =>
    rcases args with _ | ⟨v, _ | ⟨w, args⟩⟩
    · exact .fail trivial
    · simp only [Action.run]
      split
      · exact .throw trivial
      · exact .fail trivial
    · exact .fail trivial
  | nothing | count | typeOfFirst | last => exact .pure trivial
  | foreign shown => exact .fail trivial

/-- The property is kept when something is defined at the frame, and when something is printed. -/
structure Machine.Stable (frame : Nat) (P : Machine → Prop) : Prop where
  define : ∀ m name v, P m → P { m with env := m.env.define frame name v }
  print : ∀ m vs, P m → P { m with printed := vs :: m.printed }

namespace Machine.Stable

theorem evalDefine (h : Stable frame P) (p : Node.Payload) (v : Value) :
    Eval.Leaves P (Eval.define frame p v) := by
  rw [Eval.define]
  cases p.name? with
  | none => exact .pure trivial
  | some name => exact .ofChange fun m => h.define m name v

theorem call (h : Stable frame P) (f : Native) (args : List Value) :
    Eval.Leaves P (f.call args) := by
  rw [Native.call]
  split
  · split
    · exact Action.run_leaves h.print _ _ _
    · exact .fail trivial
  · exact Action.run_leaves h.print _ _ _

end Machine.Stable

mutual

/-- **Evaluating a tree does nothing to the machine but defining and printing.** -/
theorem Node.eval_leaves (h : Machine.Stable frame P) : ∀ n : Node, Eval.Leaves P (n.eval frame)
  | .leaf kind payload start => by
    rw [Node.eval]
    exact (Eval.Leaves.evalLeaf kind payload start).locating fun _ _ _ => trivial
  | .branch kind children start => by
    cases kind with
    | program | expressions =>
      rw [Node.eval]
      refine Eval.Keeps.locating ?_ fun _ _ _ => trivial
      exact (Node.evalAll_leaves h children).bind fun _ _ => .pure trivial
    | functionCall =>
      cases children with
      | nil =>
        rw [Node.eval]
        exact (Eval.Keeps.throw trivial).locating fun _ _ _ => trivial
      | cons callee args =>
        rw [Node.eval]
        refine Eval.Keeps.locating ?_ fun _ _ _ => trivial
        exact (Node.eval_leaves h callee).bind fun v _ => (Eval.Leaves.ofResult v.asNative).bind
          fun f _ => (Node.evalAll_leaves h args).bind fun vs _ => h.call f vs
    | binary =>
      rcases children with _ | ⟨lhs, _ | ⟨op, _ | ⟨rhs, _ | ⟨extra, rest⟩⟩⟩⟩
      case cons.cons.cons.nil =>
        rw [Node.eval]
        refine Eval.Keeps.locating ?_ fun _ _ _ => trivial
        refine (Eval.Leaves.operatorSymbol op).bind fun symbol _ => ?_
        exact .evalBinary trivial (Eval.Leaves.assignmentTarget lhs)
          (fun _ p v _ _ => h.evalDefine p v) (Node.eval_leaves h lhs) (Node.eval_leaves h rhs)
          fun _ _ _ _ => Eval.Leaves.ofResult _
      all_goals
        rw [Node.eval_binary_of_length_ne (by simp)]
        exact (Eval.Keeps.throw trivial).locating fun _ _ _ => trivial
    | quoted =>
      rw [Node.eval]
      exact (Eval.Keeps.pure trivial).locating fun _ _ _ => trivial
    | parenthesis =>
      cases children with
      | nil =>
        rw [Node.eval]
        exact (Eval.Keeps.throw trivial).locating fun _ _ _ => trivial
      | cons inner rest =>
        rw [Node.eval]
        exact (Node.eval_leaves h inner).locating fun _ _ _ => trivial
    | identifier | integer | float | string =>
      rw [Node.eval]
      exact (Eval.Keeps.throw trivial).locating fun _ _ _ => trivial
    | block | propertyAccess | unquote | operator | other name =>
      rw [Node.eval]
      exact (Eval.Keeps.fail trivial).locating fun _ _ _ => trivial

theorem Node.evalAll_leaves (h : Machine.Stable frame P) :
    ∀ ns : List Node, Eval.Leaves P (Node.evalAll frame ns)
  | [] => by
    rw [Node.evalAll]
    exact .pure trivial
  | n :: ns => by
    rw [Node.evalAll]
    exact (Node.eval_leaves h n).bind fun _ _ => (Node.evalAll_leaves h ns).bind fun _ _ =>
      .pure trivial

end

end

/-! ## Sources -/

/-- The sources of all frames are those of the given environment. -/
def Machine.HasSourcesOf (env : Environment) (m : Machine) : Prop :=
  ∀ i, m.env.source? i = env.source? i

theorem Machine.stable_hasSourcesOf (frame : Nat) (env : Environment) :
    Machine.Stable frame (Machine.HasSourcesOf env) where
  define m name v h i := by rw [Environment.source?_define, h i]
  print _ _ h := h

/-- Evaluation changes no source. -/
theorem Node.hasSourcesOf_eval (frame : Nat) (n : Node) (env : Environment) :
    Eval.Leaves (Machine.HasSourcesOf env) (n.eval frame) :=
  n.eval_leaves (Machine.stable_hasSourcesOf frame env)

end Juxta
