import Juxta.Proofs.Evaluation.Ordinary
import Mathlib.Data.List.Forall2

/-!
# Quoted trees are opaque

No evaluation looks into a quoted tree.  Two programs that differ only in what they quote are
evaluated alike, in environments that differ only in this way: step by step they bind the same
names, print lines with the same values but for quoted ones, and come to the same end.

The two evaluations are run side by side, and every operation of the evaluator has its rule.  What
is behind them all is that a value is asked for its type, for its content as a literal and for its
truth only, and that a quoted value answers all of this without its tree.

## What is here

* `Node.Alike` — trees that are the same but for what stands below quoted nodes; `Value.Alike`,
  `Environment.Alike`, `Machine.Alike` — the same of what an evaluation works with.
* `SameOutcome`, `Matches` — computations that come to the same end, with the rules.
* `Parser.HasShape.eval_matches` — trees of the grammar; `quoted_contents_are_opaque` — all trees
  that sources have.
-/

set_option autoImplicit false
namespace Juxta

/-! ## What is compared -/

/-- The trees are the same, but for what stands below quoted nodes. -/
inductive Node.Alike : Node → Node → Prop
  | leaf {k : Kind} {p : Payload} {start : Option Int} : Alike (.leaf k p start) (.leaf k p start)
  | quoted {cs cs' : List Node} {start : Option Int} :
      Alike (.branch .quoted cs start) (.branch .quoted cs' start)
  | branch {k : Kind} {cs cs' : List Node} {start : Option Int} (h : List.Forall₂ Alike cs cs') :
      Alike (.branch k cs start) (.branch k cs' start)

/-- The values are the same, but for what stands below quoted nodes. -/
inductive Value.Alike : Value → Value → Prop
  | same {v : Value} : Alike v v
  | quoted {n n' : Node} (h : n.Alike n') : Alike (.quoted n) (.quoted n')

namespace Value.Alike

variable {v v' : Value}

theorem type_eq (h : v.Alike v') : v.type = v'.type := by
  cases h <;> rfl

theorem literal?_eq (h : v.Alike v') : v.literal? = v'.literal? := by
  cases h <;> rfl

theorem isTruthy_eq (h : v.Alike v') : v.isTruthy = v'.isTruthy := by
  cases h <;> rfl

theorem eq_of_type_ne (h : v.Alike v') (hv : v.type ≠ .quoted) : v = v' := by
  cases h with
  | same => rfl
  | quoted => exact absurd rfl hv

theorem getLast {vs vs' : List Value} (h : List.Forall₂ Alike vs vs') :
    Alike (vs.getLast?.getD .nil) (vs'.getLast?.getD .nil) := by
  induction h with
  | nil => exact .same
  | @cons v v' vs vs' hv hvs ih =>
    cases hvs with
    | nil => exact hv
    | cons _ _ => simpa using ih

end Value.Alike

/-- The causes are the same, but for what stands below quoted nodes. -/
inductive Cause.Alike : Cause → Cause → Prop
  | same {cause : Cause} : Alike cause cause
  | notCallable {v v' : Value} (h : v.Alike v') : Alike (.notCallable v) (.notCallable v')

theorem Cause.Alike.class?_eq {cause cause' : Cause} (h : cause.Alike cause') :
    cause.class? = cause'.class? := by
  cases h <;> rfl

/-- The frames have the same parent, and bind the same names to values that are alike. -/
structure Frame.Alike (f f' : Frame) : Prop where
  parent : f.parent = f'.parent
  bindings : ∀ name, Option.Rel Value.Alike (f.bindings.get? name) (f'.bindings.get? name)

/-- The environments consist of frames that are alike. -/
def Environment.Alike (env env' : Environment) : Prop :=
  List.Forall₂ Frame.Alike env.frames env'.frames

namespace Environment.Alike

variable {env env' : Environment}

/-- A name has values that are alike. -/
theorem get? (h : env.Alike env') (i : Nat) (name : Name) :
    Option.Rel Value.Alike (env.get? i name) (env'.get? i name) := by
  obtain ⟨frames⟩ := env
  obtain ⟨frames'⟩ := env'
  rw [Environment.get?, Environment.get?]
  rw [Environment.Alike] at h
  dsimp only at h ⊢
  induction h generalizing i with
  | nil => exact .none
  | @cons f f' older older' hf holder ih =>
    rw [lookupIn, lookupIn, ← holder.length_eq]
    split
    · have hbinding := hf.bindings name
      rw [← hf.parent]
      generalize f.bindings.get? name = found, f'.bindings.get? name = found' at hbinding
      cases hbinding with
      | some hv => exact .some hv
      | none =>
        cases f.parent with
        | none => exact .none
        | some p => exact ih p
    · exact ih i

/-- Values that are alike can be defined. -/
theorem define {v v' : Value} (h : env.Alike env') (hv : v.Alike v') (i : Nat) (name : Name) :
    (env.define i name v).Alike (env'.define i name v') := by
  obtain ⟨frames⟩ := env
  obtain ⟨frames'⟩ := env'
  rw [Environment.Alike] at h
  show List.Forall₂ Frame.Alike (updateIn _ frames i) (updateIn _ frames' i)
  dsimp only at h
  induction h with
  | nil => exact .nil
  | @cons f f' older older' hf holder ih =>
    rw [updateIn, updateIn, ← holder.length_eq]
    split
    · refine .cons ⟨hf.parent, fun other => ?_⟩ holder
      rw [Bindings.get?_set, Bindings.get?_set]
      split
      · exact .some hv
      · exact hf.bindings other
    · exact .cons hf ih

end Environment.Alike

/-- No operator tells quoted trees apart: it applies to none. -/
theorem Operator.apply_alike {l l' r r' : Value} (hl : l.Alike l') (hr : r.Alike r')
    (op : Operator) : op.apply l r = op.apply l' r' := by
  cases hl with
  | quoted => cases hr <;> rfl
  | same =>
    cases hr with
    | same => rfl
    | quoted => cases l <;> rfl

theorem applyOperator_alike {l l' r r' : Value} (hl : l.Alike l') (hr : r.Alike r')
    (symbol : String) : applyOperator symbol l r = applyOperator symbol l' r' := by
  rw [applyOperator, applyOperator, hl.type_eq, hr.type_eq]
  split
  · next op _ => exact op.apply_alike hl hr
  · rfl

/-- Which place a failure gets does not depend on its cause. -/
theorem Failure.exists_place (place : Place) (source : Option String) (start : Option Int) :
    ∃ place', ∀ cause, (⟨cause, place⟩ : Failure).locate source start = ⟨cause, place'⟩ := by
  obtain ⟨_ | line, column⟩ := place
  · obtain _ | offset := start
    · exact ⟨_, fun _ => rfl⟩
    · obtain _ | text := source
      · exact ⟨_, fun _ => rfl⟩
      · cases hoffset : Position.ofOffset? text offset with
        | none => exact ⟨⟨none, column⟩, fun _ => by simp [locate, hoffset]⟩
        | some q => exact ⟨.ofPosition q, fun _ => by simp [locate, hoffset]⟩
  · exact ⟨_, fun _ => rfl⟩

/-- The machines of two evaluations at a frame: their environments are alike, the frame has the same
source text, and line by line they have printed values that are alike. -/
structure Machine.Alike (frame : Nat) (m m' : Machine) : Prop where
  env : m.env.Alike m'.env
  source : m.env.source? frame = m'.env.source? frame
  printed : List.Forall₂ (List.Forall₂ Value.Alike) m.printed m'.printed

variable {α β γ δ : Type} {frame : Nat}

/-- Two evaluations at a frame come to the same end: to values that are related, to failures for
causes that are alike at the same place, or to the same exit. -/
inductive SameOutcome (frame : Nat) (R : α → β → Prop) :
    EStateM.Result Interrupt Machine α → EStateM.Result Interrupt Machine β → Prop
  | value {a : α} {b : β} {m m' : Machine} (h : R a b) (hm : m.Alike frame m') :
      SameOutcome frame R (.ok a m) (.ok b m')
  | failure {cause cause' : Cause} {place : Place} {m m' : Machine} (h : cause.Alike cause')
      (hm : m.Alike frame m') :
      SameOutcome frame R (.error (.failure ⟨cause, place⟩) m)
        (.error (.failure ⟨cause', place⟩) m')
  | exit {code : Node.Payload} {m m' : Machine} (hm : m.Alike frame m') :
      SameOutcome frame R (.error (.exit code) m) (.error (.exit code) m')

/-- From machines that are alike two computations come to the same end. -/
def Eval.Matches (frame : Nat) (R : α → β → Prop) (x : Eval α) (y : Eval β) : Prop :=
  ∀ m m', m.Alike frame m' → SameOutcome frame R (x m) (y m')

/-! ## Rules -/

namespace Eval.Matches

variable {R : α → β → Prop} {x : Eval α} {y : Eval β}

theorem pure {a : α} {b : β} (h : R a b) : Matches frame R (Pure.pure a) (Pure.pure b) :=
  fun _ _ hm => .value h hm

theorem bind {S : γ → δ → Prop} {f : α → Eval γ} {g : β → Eval δ} (h : Matches frame R x y)
    (hfg : ∀ a b, R a b → Matches frame S (f a) (g b)) : Matches frame S (x >>= f) (y >>= g) := by
  intro m m' hm
  have houtcome := h m m' hm
  show SameOutcome frame S (EStateM.bind x f m) (EStateM.bind y g m')
  rw [EStateM.bind, EStateM.bind]
  generalize x m = r, y m' = r' at houtcome
  cases houtcome with
  | value hab hm => exact hfg _ _ hab _ _ hm
  | failure hcause hm => exact .failure hcause hm
  | exit hm => exact .exit hm

theorem fail {cause cause' : Cause} (h : cause.Alike cause') :
    Matches frame R (Eval.fail cause) (Eval.fail cause') :=
  fun _ _ hm => .failure h hm

/-- A failure gets the same place, since the source text is the same. -/
theorem locating (h : Matches frame R x y) (start : Option Int) :
    Matches frame R (Eval.locating frame start x) (Eval.locating frame start y) := by
  intro m m' hm
  have houtcome := h m m' hm
  rw [Eval.locating, Eval.locating]
  generalize x m = r, y m' = r' at houtcome
  cases houtcome with
  | value hab hm => exact .value hab hm
  | exit hm => exact .exit hm
  | @failure cause cause' place m m' hcause hm =>
    obtain ⟨place', hplace⟩ := Failure.exists_place place (m.env.source? frame) start
    dsimp only
    rw [← hm.source, hplace, hplace]
    exact .failure hcause hm

/-! ## Operations of the evaluator -/

theorem lookup (p : Node.Payload) :
    Matches frame Value.Alike (Eval.lookup frame p) (Eval.lookup frame p) := by
  intro m m' hm
  have hget : Option.Rel Value.Alike (p.name?.bind (m.env.get? frame))
      (p.name?.bind (m'.env.get? frame)) := by
    cases p.name? with
    | none => exact .none
    | some name => exact hm.env.get? frame name
  rw [lookup_apply, lookup_apply]
  generalize p.name?.bind (m.env.get? frame) = found,
    p.name?.bind (m'.env.get? frame) = found' at hget
  cases hget with
  | none => exact .failure .same hm
  | some hv => exact .value hv hm

theorem define {v v' : Value} (h : v.Alike v') (p : Node.Payload) :
    Matches frame Eq (Eval.define frame p v) (Eval.define frame p v') := by
  intro m m' hm
  rw [Eval.define, Eval.define]
  cases p.name? with
  | none => exact .value rfl hm
  | some name =>
    refine .value rfl ⟨hm.env.define h frame name, ?_, hm.printed⟩
    simp [hm.source]

theorem printLine {vs vs' : List Value} (h : List.Forall₂ Value.Alike vs vs') :
    Matches frame Eq (Eval.printLine vs) (Eval.printLine vs') :=
  fun _ _ hm => .value rfl ⟨hm.env, hm.source, .cons h hm.printed⟩

theorem ofResult (r : Except Cause Value) :
    Matches frame Value.Alike (Eval.ofResult r) (Eval.ofResult r) := by
  cases r with
  | ok v => exact .pure .same
  | error cause => exact .fail .same

/-- A quoted tree is no function, whatever it is. -/
theorem asNative {v v' : Value} (h : v.Alike v') :
    Matches frame Eq (Eval.ofResult v.asNative) (Eval.ofResult v'.asNative) := by
  cases h with
  | quoted hn => exact .fail (.notCallable (.quoted hn))
  | same =>
    cases v.asNative with
    | ok f => exact .pure rfl
    | error cause => exact .fail .same

/-- No action of a native function looks into a quoted tree. -/
theorem action {vs vs' : List Value} (h : List.Forall₂ Value.Alike vs vs') (name : String)
    (action : Action) : Matches frame Value.Alike (action.run name vs) (action.run name vs') := by
  cases action with
  | printLine => exact (printLine h).bind fun _ _ _ => .pure .same
  | quit =>
    cases h with
    | nil => exact .fail .same
    | cons hv h =>
      cases h with
      | nil =>
        simp only [Action.run, hv.literal?_eq, hv.type_eq]
        split
        · exact fun _ _ hm => .exit hm
        · exact .fail .same
      | cons _ h =>
        simp only [Action.run, List.length_cons, h.length_eq]
        exact .fail .same
  | nothing => exact .pure .same
  | foreign shown => exact .fail .same
  | count =>
    simp only [Action.run, h.length_eq]
    exact .pure .same
  | typeOfFirst =>
    cases h with
    | nil => exact .pure .same
    | cons hv _ =>
      simp only [Action.run, List.head?_cons, Option.map_some, hv.type_eq]
      exact .pure .same
  | last => exact .pure (.getLast h)

theorem call {vs vs' : List Value} (h : List.Forall₂ Value.Alike vs vs') (f : Native) :
    Matches frame Value.Alike (f.call vs) (f.call vs') := by
  rw [Native.call, Native.call, h.length_eq]
  split
  · split
    · exact .action h f.name f.action
    · exact .fail .same
  · exact .action h f.name f.action

/-- The target of an assignment is never quoted. -/
theorem assignmentTarget {c : Parser.Category} {target target' : Node}
    (hshape : Parser.HasShape c target) (h : target.Alike target') :
    Matches frame Eq (Node.assignmentTarget target) (Node.assignmentTarget target') := by
  have hpayload := (hshape.holdsPayload target target.mem_subtrees_self).isSome
  cases h with
  | @leaf k p start =>
    cases k with
    | identifier => exact .pure rfl
    | _ => exact .fail .same
  | quoted => exact .fail .same
  | @branch k cs cs' start =>
    cases k with
    | identifier => cases hpayload
    | _ => exact .fail .same

/-- Operators between operands match if their operands do. -/
theorem evalBinary {c : Parser.Category} {target target' : Node}
    {left left' right right' : Eval Value} (hshape : Parser.HasShape c target)
    (htarget : target.Alike target') (hl : Matches frame Value.Alike left left')
    (hr : Matches frame Value.Alike right right') (symbol : String) :
    Matches frame Value.Alike (Node.evalBinary frame symbol target left right)
      (Node.evalBinary frame symbol target' left' right') := by
  rw [Node.evalBinary, Node.evalBinary]
  split
  · refine (assignmentTarget hshape htarget).bind ?_
    rintro p _ rfl
    exact hr.bind fun v v' hv => (define hv p).bind fun _ _ _ => .pure .same
  · split
    · refine hl.bind fun v v' hv => ?_
      rw [hv.isTruthy_eq]
      split
      · exact hr
      · exact .pure hv
    · split
      · refine hl.bind fun v v' hv => ?_
        rw [hv.isTruthy_eq]
        split
        · exact .pure hv
        · exact hr
      · refine hl.bind fun l l' hv => hr.bind fun r r' hw => ?_
        rw [applyOperator_alike hv hw]
        exact .ofResult _

/-- Trees that match one by one match in a row. -/
theorem evalAll {ns ns' : List Node} (hns : List.Forall₂ Node.Alike ns ns')
    (h : ∀ n ∈ ns, ∀ n', n.Alike n' → Matches frame Value.Alike (n.eval frame) (n'.eval frame)) :
    Matches frame (List.Forall₂ Value.Alike) (Node.evalAll frame ns) (Node.evalAll frame ns') := by
  induction hns with
  | nil => exact .pure .nil
  | cons hn _ ih =>
    obtain ⟨hfirst, hrest⟩ := List.forall_mem_cons.1 h
    rw [Node.evalAll, Node.evalAll]
    exact (hfirst _ hn).bind fun _ _ hv => (ih hrest).bind fun _ _ hvs => .pure (.cons hv hvs)

end Eval.Matches

/-! ## Trees -/

open Eval (Matches)

/-- An operator is evaluated alike if its operands are. -/
theorem binary_matches {c : Parser.Category} {lhs rhs n' : Node} {op : String}
    {place start : Option Int} (hshape : Parser.HasShape c lhs)
    (hl : ∀ {n'}, lhs.Alike n' → Matches frame Value.Alike (lhs.eval frame) (n'.eval frame))
    (hr : ∀ {n'}, rhs.Alike n' → Matches frame Value.Alike (rhs.eval frame) (n'.eval frame))
    (h : (Node.branch .binary [lhs, Parser.operatorLeaf op place, rhs] start).Alike n') :
    Matches frame Value.Alike
      ((Node.branch .binary [lhs, Parser.operatorLeaf op place, rhs] start).eval frame)
      (n'.eval frame) := by
  have hop : (Parser.operatorLeaf op place).leafValue .operator = .ok (.str op) := rfl
  obtain _ | _ | ⟨hcs⟩ := h
  obtain _ | @⟨_, lhs', _, _, hlhs, hcs⟩ := hcs
  obtain _ | @⟨_, leaf, _, _, hleaf, hcs⟩ := hcs
  obtain _ | @⟨_, rhs', _, _, hrhs, hcs⟩ := hcs
  obtain rfl : leaf = Parser.operatorLeaf op place := by cases hleaf; rfl
  cases hcs
  rw [Node.eval_binary hop, Node.eval_binary hop]
  exact .locating (.evalBinary hshape hlhs (hl hlhs) (hr hrhs) _) start

/-- **Trees of the grammar are evaluated alike** if they differ only below quoted nodes. -/
theorem Parser.HasShape.eval_matches {c : Category} {n n' : Node} (hshape : HasShape c n)
    (h : n.Alike n') : Matches frame Value.Alike (n.eval frame) (n'.eval frame) := by
  induction hshape generalizing n' with
  | identifier =>
    cases h
    rw [Node.eval]
    exact .locating (.lookup _) _
  | integer | float | string =>
    cases h
    rw [Node.eval]
    exact .locating (.pure .same) _
  | group _ ih | noProperty _ ih | noOperand _ ih | noCall _ ih | plain _ ih => exact ih h
  | parens _ ih =>
    obtain _ | _ | ⟨hcs⟩ := h
    obtain _ | ⟨hinner, -⟩ := hcs
    rw [Node.eval, Node.eval]
    exact .locating (ih hinner) _
  | block | unquote | property =>
    obtain _ | _ | ⟨hcs⟩ := h
    rw [Node.eval, Node.eval]
    exact .locating (.fail .same) _
  | quoted =>
    -- the value is the node itself, which is not asked for its children
    cases h with
    | quoted | branch =>
      rw [Node.eval, Node.eval]
      exact .locating (.pure (.quoted .quoted)) _
  | operand hlhs _ _ ihl ihr => exact binary_matches hlhs ihl ihr h
  | nested hlhs _ _ ihl ihr => exact binary_matches hlhs ihl ihr h
  | @call callee args start _ _ _ ih ihargs =>
    obtain _ | _ | ⟨hcs⟩ := h
    obtain _ | ⟨hcallee, hargs⟩ := hcs
    rw [Node.eval, Node.eval]
    refine .locating ((ih hcallee).bind fun v v' hv => (Matches.asNative hv).bind ?_) _
    rintro f _ rfl
    exact (Matches.evalAll hargs fun arg harg _ => ihargs arg harg).bind fun _ _ hvs =>
      .call hvs f

namespace Parser

/-- The shape of the trees that sources have: an expression, or a sequence of statements. -/
inductive TreeShape : Node → Prop
  | expression {n : Node} (h : HasShape .expression n) : TreeShape n
  | statements {k : Node.Kind} {ns : List Node} {start : Option Int}
      (hk : k = .program ∨ k = .expressions) (h : ∀ n ∈ ns, HasShape .expression n) :
      TreeShape (.branch k ns start)

theorem treeShape_of_parse {mode : Mode} {source : String} {n : Node}
    (h : parse mode source = .ok n) : TreeShape n := by
  have hparse := parsesTo_parseSource .standard mode source
  rw [show (parseSource .standard mode source).tree = .ok n from h] at hparse
  cases hparse.sourceTree with
  | statements hk hshape _ => exact .statements hk hshape
  | expression hshape _ => exact .expression hshape

theorem TreeShape.eval_matches {n n' : Node} (hshape : TreeShape n) (h : n.Alike n') :
    Matches frame Value.Alike (n.eval frame) (n'.eval frame) := by
  cases hshape with
  | expression hshape => exact hshape.eval_matches h
  | statements hk hshape =>
    have hall (n : Node) (hn : n ∈ _) (n' : Node) (h : n.Alike n') :
        Matches frame Value.Alike (n.eval frame) (n'.eval frame) := (hshape n hn).eval_matches h
    rcases hk with rfl | rfl
    · obtain _ | _ | ⟨hcs⟩ := h
      rw [Node.eval, Node.eval]
      exact .locating ((Matches.evalAll hcs hall).bind fun _ _ _ => .pure .same) _
    · obtain _ | _ | ⟨hcs⟩ := h
      rw [Node.eval, Node.eval]
      exact .locating ((Matches.evalAll hcs hall).bind fun _ _ hvs => .pure (.getLast hvs)) _

end Parser

/-- **Quoted trees are opaque.**  Two trees of the shape of sources that differ only below quoted
nodes, evaluated in machines that differ only in this way, come to the same kind of end: to values
of the same type, which are equal unless they are quoted; to failures of the same class at the same
place; or to an exit with the same code.  In all cases the machines that they leave, with their
bindings and what they have printed, differ only below quoted nodes. -/
theorem quoted_contents_are_opaque :
    (∀ mode source n, Parser.parse mode source = .ok n → Parser.TreeShape n) ∧
    ∀ (n n' : Node) (frame : Nat) (m m' : Machine), Parser.TreeShape n → n.Alike n' →
      m.Alike frame m' →
      match n.eval frame m, n'.eval frame m' with
      | .ok v w, .ok v' w' =>
        v.type = v'.type ∧ (v.type ≠ .quoted → v = v') ∧ v.Alike v' ∧ w.Alike frame w'
      | .error (.failure f) w, .error (.failure f') w' =>
        f.cause.class? = f'.cause.class? ∧ f.place = f'.place ∧ f.cause.Alike f'.cause ∧
          w.Alike frame w'
      | .error (.exit code) w, .error (.exit code') w' => code = code' ∧ w.Alike frame w'
      | _, _ => False := by
  refine ⟨fun mode source n => Parser.treeShape_of_parse, ?_⟩
  intro n n' frame m m' hshape h hm
  have houtcome := hshape.eval_matches h m m' hm
  generalize n.eval frame m = r, n'.eval frame m' = r' at houtcome
  cases houtcome with
  | value hv hm => exact ⟨hv.type_eq, hv.eq_of_type_ne, hv, hm⟩
  | failure hcause hm => exact ⟨hcause.class?_eq, rfl, hcause, hm⟩
  | exit hm => exact ⟨rfl, hm⟩

/-- A program that binds a quoted tree, prints it beside another one, and then calls it. -/
theorem quoted_contents_are_opaque_called :
    let name (text : String) (start : Int) : Node := .leaf .identifier (.str text) (some start)
    let program (inner : Node) : Node := .branch .program
      [.branch .binary [name "x" 0, Parser.operatorLeaf ":=" (some 2),
          .branch .quoted [inner] (some 5)] (some 0),
        .branch .functionCall [name "println" 8, name "x" 16, name "y" 18] (some 8),
        .branch .functionCall [name "x" 20, .leaf .integer (.int 1) (some 22)] (some 20)] none
    let machine (inner : Node) : Machine := .ofEnvironment
      ((Builtins.standard.environment (some "x := :a\nprintln x y\nx 1")).define 0 "y"
        (.quoted (.branch .quoted [inner] none)))
    let n := program (name "a" 6)
    let n' := program (.leaf .integer (.int 7) (some 6))
    let m := machine (name "b" 0)
    let m' := machine (.branch .block [] none)
    Parser.TreeShape n ∧ n.Alike n' ∧ m.Alike 0 m' ∧
      ∃ f w f' w', n.eval 0 m = .error (.failure f) w ∧ n'.eval 0 m' = .error (.failure f') w' ∧
        f.cause.class? = some .notCallable ∧ f'.cause.class? = some .notCallable ∧
        f.place = ⟨some 3, some 1⟩ ∧ f'.place = ⟨some 3, some 1⟩ ∧ w.Alike 0 w' := by
  intro name program machine n n' m m'
  have hname (text : String) (start : Int) : Parser.HasShape .propertyOrValue (name text start) :=
    .noProperty .identifier
  have hshape : Parser.TreeShape n := by
    refine .statements (.inl rfl) ?_
    simp only [List.forall_mem_cons]
    refine ⟨.nested (.noCall (.noOperand (hname _ _))) (by decide) ?_,
      .plain (.call (hname _ _) ?_ ?_), .plain (.call (hname _ _) ?_ ?_), by simp⟩
    · exact .plain (.noCall (.noOperand (.noProperty (.quoted (hname _ _)))))
    · simp
    · simp only [List.forall_mem_cons]
      exact ⟨.noOperand (hname _ _), .noOperand (hname _ _), by simp⟩
    · simp
    · simp only [List.forall_mem_cons]
      exact ⟨.noOperand (.noProperty (.integer (by decide) (by decide))), by simp⟩
  have halike : n.Alike n' :=
    .branch (.cons (.branch (.cons .leaf (.cons .leaf (.cons .quoted .nil))))
      (.cons (.branch (.cons .leaf (.cons .leaf (.cons .leaf .nil))))
        (.cons (.branch (.cons .leaf (.cons .leaf .nil))) .nil)))
  have hm : m.Alike 0 m' := by
    have hroot : (Builtins.standard.environment (some "x := :a\nprintln x y\nx 1")).Alike
        (Builtins.standard.environment (some "x := :a\nprintln x y\nx 1")) := by
      refine .cons ⟨rfl, fun other => ?_⟩ .nil
      cases Bindings.get? _ other with
      | none => exact .none
      | some v => exact .some .same
    exact ⟨hroot.define (.quoted .quoted) 0 "y", rfl, .nil⟩
  have houtcome := quoted_contents_are_opaque.2 n n' 0 m m' hshape halike hm
  obtain ⟨f, w, hf, hclass, hplace⟩ : ∃ f w, n.eval 0 m = .error (.failure f) w ∧
      f.cause.class? = some .notCallable ∧ f.place = ⟨some 3, some 1⟩ := ⟨_, _, rfl, rfl, rfl⟩
  obtain ⟨f', w', hf'⟩ : ∃ f' w', n'.eval 0 m' = .error (.failure f') w' := ⟨_, _, rfl⟩
  rw [hf, hf'] at houtcome
  obtain ⟨hclass', hplace', -, hw⟩ := houtcome
  exact ⟨hshape, halike, hm, f, w, f', w', hf, hf', hclass, hclass' ▸ hclass, hplace,
    hplace' ▸ hplace, hw⟩

end Juxta
