import Juxta.Proofs.Evaluation.Logic
import Juxta.Proofs.Parser.Joining
import Juxta.Proofs.Text.Position
import Mathlib.Data.List.Forall2

/-!
# Evaluating a part of a program

A part of a program that begins a line can be evaluated by itself, with its own text as the source,
or within the whole program, after what stands before it.  Its trees start later then, and a failure
is located further down; but nothing else is different.  Both evaluations bind the same names to the
same values, print the same lines, and end in the same way.

The proof compares two computations step by step.  `Part.Agrees` says that from machines that match
they come to outcomes that match, and every operation of the evaluator has its rule.  A failure has
no place until the node that raised it is left: that is the only moment at which the two evaluations
do different things, and it is where the texts must fit together.

## What is here

* `Part` — a part of a program, and what was printed before it.
* `Part.Matches`, `Interrupt.Raised`, `Interrupt.Moved`, `Part.Outcomes` — what is compared.
* `Part.Agrees` — computations that come to matching outcomes, with its rules.
* `Part.eval_agrees` — trees of the grammar, evaluated both ways; `Part.evalAll_outcomes` —
  programs.
-/

set_option autoImplicit false
namespace Juxta

/-- A failure without a place gets the one that it is given. -/
theorem Failure.locate_ofCause {cause : Cause} {text : String} {offset : Int} {q : Position}
    (h : Position.ofOffset? text offset = some q) :
    (Failure.ofCause cause).locate (some text) (some offset) = ⟨cause, .ofPosition q⟩ := by
  simp only [locate, ofCause, Place.unknown, h]

/-- A tree that starts later is the same tree. -/
theorem Node.unplaced_shift (d : Nat) (n : Node) : (n.shift d).unplaced = n.unplaced := by
  rw [← Node.relocate_eq_shift, Node.unplaced_relocate]

/-! ## Parts of programs -/

/-- A part of a program that is evaluated at a frame: the text of the program before it, after which
a line begins, its own text, the text behind it, and what was printed before, without places. -/
structure Part where
  frame : Nat
  before : String
  text : String
  behind : String
  earlier : List (List Value)
  begins_line : (Position.start.after before.toList).column = 1

namespace Part

variable (part : Part)

/-- The text of the whole program. -/
def whole : String :=
  part.before ++ part.text ++ part.behind

/-- How many lines further down the part stands in the program than by itself. -/
def lines : Nat :=
  part.before.toList.count '\n'

theorem start_after_before :
    Position.start.after part.before.toList = Position.start.down part.lines := by
  have hline := Position.line_after Position.start part.before.toList
  have hcolumn := part.begins_line
  cases hq : Position.start.after part.before.toList with
  | mk line column =>
    rw [hq] at hline hcolumn
    rw [Position.down, show line = _ from hline, show column = 1 from hcolumn]
    rfl

/-- An offset in the part has the same column in the program, and its line is further down. -/
theorem exists_position {offset : Nat} (h : offset ≤ part.text.length) :
    ∃ q, Position.ofOffset? part.text offset = some q ∧
      Position.ofOffset? part.whole (offset + part.before.length) = some (q.down part.lines) := by
  refine ⟨Position.start.after (part.text.toList.take offset), Position.ofOffset?_of_le h, ?_⟩
  have htake : part.whole.toList.take (offset + part.before.length) =
      part.before.toList ++ part.text.toList.take offset := by
    rw [whole, String.toList_append, String.toList_append, List.append_assoc, Nat.add_comm,
      ← String.length_toList, List.take_length_add_append, List.take_append_of_le_length]
    rw [String.length_toList]
    exact h
  have hle : offset + part.before.length ≤ part.whole.length := by
    rw [whole, String.length_append, String.length_append]
    omega
  rw [← Int.natCast_add, Position.ofOffset?_of_le hle, htake, Position.after_append,
    start_after_before, Position.after_down]

end Part

/-! ## What is compared -/

/-- The same value, places aside. -/
def SameValue (v v' : Value) : Prop :=
  v.unplaced = v'.unplaced

/-- The same values in the same order, places aside. -/
abbrev SameValues (vs vs' : List Value) : Prop :=
  List.Forall₂ SameValue vs vs'

theorem SameValues.map_unplaced {vs vs' : List Value} (h : SameValues vs vs') :
    vs.map Value.unplaced = vs'.map Value.unplaced := by
  induction h with
  | nil => rfl
  | cons hv _ ih => rw [List.map_cons, List.map_cons, hv, ih]

theorem SameValues.getLast {vs vs' : List Value} (h : SameValues vs vs') :
    SameValue (vs.getLast?.getD .nil) (vs'.getLast?.getD .nil) := by
  rw [SameValue, Value.unplaced_getLast, Value.unplaced_getLast, h.map_unplaced]

theorem SameValue.type_eq {v v' : Value} (h : SameValue v v') : v'.type = v.type := by
  rw [← Value.type_unplaced, ← h, Value.type_unplaced]

theorem SameValue.literal?_eq {v v' : Value} (h : SameValue v v') : v'.literal? = v.literal? := by
  rw [← Value.literal?_unplaced, ← h, Value.literal?_unplaced]

theorem SameValue.isTruthy_eq {v v' : Value} (h : SameValue v v') : v'.isTruthy = v.isTruthy := by
  rw [← Value.isTruthy_unplaced, ← h, Value.isTruthy_unplaced]

/-- The second interrupt is the first one, further down in the source. -/
inductive Interrupt.Moved (lines : Nat) : Interrupt → Interrupt → Prop
  | failure {cause cause' : Cause} {line column : Int} (h : cause'.unplaced = cause.unplaced) :
      Moved lines (.failure ⟨cause, ⟨some line, some column⟩⟩)
        (.failure ⟨cause', ⟨some (line + lines), some column⟩⟩)
  | exit {code : Node.Payload} : Moved lines (.exit code) (.exit code)

/-- The same for interrupts that were raised just now: a failure may still be without a place. -/
inductive Interrupt.Raised (lines : Nat) : Interrupt → Interrupt → Prop
  | moved {i j : Interrupt} (h : Moved lines i j) : Raised lines i j
  | failure {cause cause' : Cause} (h : cause'.unplaced = cause.unplaced) :
      Raised lines (.failure (.ofCause cause)) (.failure (.ofCause cause'))

namespace Part

variable {α β γ δ : Type} {part : Part} {I : Interrupt → Interrupt → Prop} {R : α → β → Prop}

/-- The machines in which the part is evaluated, by itself and within the program: they bind the
same and print the same, except for what was printed before. -/
structure Matches (part : Part) (m m' : Machine) : Prop where
  env : m'.env.unplaced = m.env.unplaced
  printed : m'.printed.map (List.map Value.unplaced) =
    m.printed.map (List.map Value.unplaced) ++ part.earlier
  text : m.env.source? part.frame = some part.text
  whole : m'.env.source? part.frame = some part.whole

/-- The outcomes of two evaluations: both yield values that are related, or both are interrupted,
and the interrupts are related. -/
inductive Outcomes (part : Part) (I : Interrupt → Interrupt → Prop) (R : α → β → Prop) :
    EStateM.Result Interrupt Machine α → EStateM.Result Interrupt Machine β → Prop
  | ok {a : α} {b : β} {m m' : Machine} (value : R a b) (machine : part.Matches m m') :
      Outcomes part I R (.ok a m) (.ok b m')
  | error {i j : Interrupt} {m m' : Machine} (interrupt : I i j) (machine : part.Matches m m') :
      Outcomes part I R (.error i m) (.error j m')

theorem Outcomes.ok_or_error {r : EStateM.Result Interrupt Machine α}
    {r' : EStateM.Result Interrupt Machine β} (h : part.Outcomes I R r r') :
    (∃ a b m m', r = .ok a m ∧ r' = .ok b m' ∧ R a b ∧ part.Matches m m') ∨
      ∃ i j m m', r = .error i m ∧ r' = .error j m' ∧ I i j ∧ part.Matches m m' := by
  cases h with
  | ok value machine => exact .inl ⟨_, _, _, _, rfl, rfl, value, machine⟩
  | error interrupt machine => exact .inr ⟨_, _, _, _, rfl, rfl, interrupt, machine⟩

/-- Two computations agree: from matching machines they come to matching outcomes. -/
def Agrees (part : Part) (I : Interrupt → Interrupt → Prop) (R : α → β → Prop) (x : Eval α)
    (y : Eval β) : Prop :=
  ∀ m m', part.Matches m m' → part.Outcomes I R (x m) (y m')

/-! ## Rules -/

namespace Agrees

variable {x : Eval α} {y : Eval β}

theorem pure {a : α} {b : β} (h : R a b) : part.Agrees I R (Pure.pure a) (Pure.pure b) :=
  fun _ _ hm => .ok h hm

theorem bind {f : α → Eval γ} {g : β → Eval δ} {S : γ → δ → Prop} (h : part.Agrees I R x y)
    (hfg : ∀ a b, R a b → part.Agrees I S (f a) (g b)) :
    part.Agrees I S (x >>= f) (y >>= g) := by
  intro m m' hm
  have houtcomes := h m m' hm
  show part.Outcomes I S (EStateM.bind x f m) (EStateM.bind y g m')
  rw [EStateM.bind, EStateM.bind]
  generalize x m = r, y m' = r' at houtcomes
  cases houtcomes with
  | ok hvalue hmachine => exact hfg _ _ hvalue _ _ hmachine
  | error hinterrupt hmachine => exact .error hinterrupt hmachine

theorem throw {i j : Interrupt} (h : I i j) :
    part.Agrees I R (MonadExcept.throw i) (MonadExcept.throw j) :=
  fun _ _ hm => .error h hm

theorem fail {cause cause' : Cause} (h : cause'.unplaced = cause.unplaced) :
    part.Agrees (Interrupt.Raised part.lines) R (Eval.fail cause) (Eval.fail cause') :=
  .throw (.failure h)

/-- A failure that has its place stays as it is. -/
theorem raised (h : part.Agrees (Interrupt.Moved part.lines) R x y) :
    part.Agrees (Interrupt.Raised part.lines) R x y := by
  intro m m' hm
  have houtcomes := h m m' hm
  generalize x m = r, y m' = r' at houtcomes ⊢
  cases houtcomes with
  | ok hvalue hmachine => exact .ok hvalue hmachine
  | error hinterrupt hmachine => exact .error (.moved hinterrupt) hmachine

/-- **A failure gets its place** from an offset in the part, or from the same offset in the program,
which is further down. -/
theorem locating {offset : Nat} (hoffset : offset ≤ part.text.length)
    (h : part.Agrees (Interrupt.Raised part.lines) R x y) :
    part.Agrees (Interrupt.Moved part.lines) R (Eval.locating part.frame (some ↑offset) x)
      (Eval.locating part.frame (some (↑offset + ↑part.before.length)) y) := by
  intro m m' hm
  have houtcomes := h m m' hm
  rw [Eval.locating, Eval.locating]
  generalize x m = r, y m' = r' at houtcomes ⊢
  cases houtcomes with
  | ok hvalue hmachine => exact .ok hvalue hmachine
  | error hinterrupt hmachine =>
    cases hinterrupt with
    | moved hmoved =>
      cases hmoved with
      | failure hcause => exact .error (.failure hcause) hmachine
      | exit => exact .error .exit hmachine
    | failure hcause =>
      obtain ⟨q, hq, hq'⟩ := part.exists_position hoffset
      dsimp only
      rw [hmachine.text, hmachine.whole, Failure.locate_ofCause hq, Failure.locate_ofCause hq']
      exact .error (.failure hcause) hmachine

/-! ## Operations of the evaluator -/

/-- A name has the same value in both machines. -/
theorem lookup (p : Node.Payload) :
    part.Agrees (Interrupt.Raised part.lines) SameValue (Eval.lookup part.frame p)
      (Eval.lookup part.frame p) := by
  intro m m' hm
  rw [Eval.lookup_apply, Eval.lookup_apply]
  have hsame : (p.name?.bind (m'.env.get? part.frame)).map Value.unplaced =
      (p.name?.bind (m.env.get? part.frame)).map Value.unplaced := by
    cases p.name? with
    | none => rfl
    | some name =>
      rw [Option.bind_some, Option.bind_some, ← Environment.get?_unplaced,
        ← Environment.get?_unplaced, hm.env]
  generalize p.name?.bind (m.env.get? part.frame) = found,
    p.name?.bind (m'.env.get? part.frame) = found' at hsame ⊢
  cases found with
  | none =>
    obtain rfl := Option.map_eq_none_iff.1 hsame
    exact .error (.failure rfl) hm
  | some v =>
    obtain ⟨v', rfl, hv⟩ := Option.map_eq_some_iff.1 hsame
    exact .ok hv.symm hm

theorem define {v v' : Value} (h : SameValue v v') (p : Node.Payload) :
    part.Agrees I (fun _ _ => True) (Eval.define part.frame p v) (Eval.define part.frame p v') := by
  intro m m' hm
  rw [Eval.define, Eval.define]
  cases p.name? with
  | none => exact .ok trivial hm
  | some name =>
    refine .ok trivial ⟨?_, hm.printed, ?_, ?_⟩
    · rw [Environment.define_unplaced, Environment.define_unplaced, hm.env, h]
    · rw [Environment.source?_define, hm.text]
    · rw [Environment.source?_define, hm.whole]

theorem printLine {vs vs' : List Value} (h : SameValues vs vs') :
    part.Agrees I (fun _ _ => True) (Eval.printLine vs) (Eval.printLine vs') := by
  intro m m' hm
  refine .ok trivial ⟨hm.env, ?_, hm.text, hm.whole⟩
  show List.map _ (vs' :: m'.printed) = List.map _ (vs :: m.printed) ++ part.earlier
  rw [List.map_cons, List.map_cons, hm.printed, h.map_unplaced]
  rfl

/-- What an operator makes of two values does not depend on places. -/
theorem applyOperator {l l' r r' : Value} (hl : SameValue l l') (hr : SameValue r r')
    (symbol : String) :
    part.Agrees (Interrupt.Raised part.lines) SameValue
      (Eval.ofResult (Juxta.applyOperator symbol l r))
      (Eval.ofResult (Juxta.applyOperator symbol l' r')) := by
  rw [← applyOperator_unplaced symbol l r, hl, hr, applyOperator_unplaced symbol l' r']
  cases Juxta.applyOperator symbol l' r' with
  | ok v => exact .pure rfl
  | error cause => exact .fail rfl

/-- A value and the same value are the same function, or neither is one. -/
theorem asNative {v v' : Value} (h : SameValue v v') :
    part.Agrees (Interrupt.Raised part.lines) Eq (Eval.ofResult v.asNative)
      (Eval.ofResult v'.asNative) := by
  have hcase (w : Value) : (∃ f, w = .native f) ∨ w.asNative = .error (.notCallable w) := by
    cases w with
    | native f => exact .inl ⟨f, rfl⟩
    | _ => exact .inr rfl
  rcases hcase v with ⟨f, rfl⟩ | hv
  · obtain rfl : v' = .native f := by
      cases v' <;> cases h
      rfl
    exact .pure rfl
  · rcases hcase v' with ⟨f, rfl⟩ | hv'
    · obtain rfl : v = .native f := by
        cases v <;> cases h
        rfl
      exact .pure rfl
    · rw [hv, hv']
      exact .fail (congrArg Cause.notCallable h.symm)

/-- No action of a native function looks at places. -/
theorem action {vs vs' : List Value} (h : SameValues vs vs') (name : String) (action : Action) :
    part.Agrees (Interrupt.Raised part.lines) SameValue (action.run name vs)
      (action.run name vs') := by
  cases action with
  | printLine => exact (printLine h).bind fun _ _ _ => .pure rfl
  | quit =>
    cases h with
    | nil => exact .fail rfl
    | cons hv h =>
      cases h with
      | nil =>
        simp only [Action.run, hv.literal?_eq, hv.type_eq]
        split
        · exact .throw (.moved .exit)
        · exact .fail rfl
      | cons _ h =>
        simp only [Action.run, List.length_cons, h.length_eq]
        exact .fail rfl
  | nothing => exact .pure rfl
  | foreign shown => exact .fail rfl
  | count =>
    simp only [Action.run, h.length_eq]
    exact .pure rfl
  | typeOfFirst =>
    cases h with
    | nil => exact .pure rfl
    | cons hv _ =>
      simp only [Action.run, List.head?_cons, Option.map_some, hv.type_eq]
      exact .pure rfl
  | last => exact .pure h.getLast

/-- Native functions do not look at places. -/
theorem call {vs vs' : List Value} (h : SameValues vs vs') (f : Native) :
    part.Agrees (Interrupt.Raised part.lines) SameValue (f.call vs) (f.call vs') := by
  rw [Native.call, Native.call, h.length_eq]
  split
  · split
    · exact .action h f.name f.action
    · exact .fail rfl
  · exact .action h f.name f.action

/-- The target of an assignment, which is the payload of a leaf if it is an identifier. -/
theorem assignmentTarget {target : Node}
    (h : target.kind = .identifier → target.payload?.isSome = true) (d : Nat) :
    part.Agrees (Interrupt.Raised part.lines) Eq (Node.assignmentTarget target)
      (Node.assignmentTarget (target.shift d)) := by
  cases target with
  | leaf k p s =>
    cases k with
    | identifier => exact .pure rfl
    | _ => exact .fail rfl
  | branch k cs s =>
    cases k with
    | identifier => cases h rfl
    | _ => exact .fail rfl

/-- Operators between operands agree if their operands do. -/
theorem evalBinary {left left' right right' : Eval Value} {target : Node}
    (htarget : target.kind = .identifier → target.payload?.isSome = true)
    (hl : part.Agrees (Interrupt.Moved part.lines) SameValue left left')
    (hr : part.Agrees (Interrupt.Moved part.lines) SameValue right right') (symbol : String)
    (d : Nat) :
    part.Agrees (Interrupt.Raised part.lines) SameValue
      (Node.evalBinary part.frame symbol target left right)
      (Node.evalBinary part.frame symbol (target.shift d) left' right') := by
  rw [Node.evalBinary, Node.evalBinary]
  split
  · refine (assignmentTarget htarget d).bind ?_
    rintro p _ rfl
    refine hr.raised.bind fun v v' hv => ?_
    exact (define hv p).bind fun _ _ _ => .pure rfl
  · split
    · refine hl.raised.bind fun v v' hv => ?_
      rw [hv.isTruthy_eq]
      split
      · exact hr.raised
      · exact .pure hv
    · split
      · refine hl.raised.bind fun v v' hv => ?_
        rw [hv.isTruthy_eq]
        split
        · exact .pure hv
        · exact hr.raised
      · exact hl.raised.bind fun _ _ hv => hr.raised.bind fun _ _ hw => .applyOperator hv hw symbol

/-- Trees that agree one by one agree in a row. -/
theorem evalAll {ns : List Node} {d : Nat}
    (h : ∀ n ∈ ns, part.Agrees I SameValue (n.eval part.frame) ((n.shift d).eval part.frame)) :
    part.Agrees I SameValues (Node.evalAll part.frame ns)
      (Node.evalAll part.frame (ns.map (Node.shift d))) := by
  induction ns with
  | nil => exact .pure .nil
  | cons n ns ih =>
    obtain ⟨hn, hns⟩ := List.forall_mem_cons.1 h
    rw [List.map_cons, Node.evalAll, Node.evalAll]
    exact hn.bind fun _ _ hv => (ih hns).bind fun _ _ hvs => .pure (.cons hv hvs)

end Agrees

/-! ## Trees -/

/-- An operator in the part is evaluated alike both ways if its operands are. -/
theorem binary_agrees {c : Parser.Category} {lhs rhs : Node} {op : String} {place : Option Int}
    {offset : Nat} (hshape : Parser.HasShape c lhs) (hoffset : offset ≤ part.text.length)
    (hl : part.Agrees (Interrupt.Moved part.lines) SameValue (lhs.eval part.frame)
      ((lhs.shift part.before.length).eval part.frame))
    (hr : part.Agrees (Interrupt.Moved part.lines) SameValue (rhs.eval part.frame)
      ((rhs.shift part.before.length).eval part.frame)) :
    let node := Node.branch .binary [lhs, Parser.operatorLeaf op place, rhs] (some ↑offset)
    part.Agrees (Interrupt.Moved part.lines) SameValue (node.eval part.frame)
      ((node.shift part.before.length).eval part.frame) := by
  have htarget : lhs.kind = .identifier → lhs.payload?.isSome = true := by
    intro hkind
    rw [(hshape.holdsPayload lhs lhs.mem_subtrees_self).isSome, hkind]
    rfl
  intro node
  rw [Node.shift_branch, List.map_cons, List.map_cons, List.map_cons, List.map_nil, Node.eval,
    Node.eval]
  refine .locating hoffset (.bind (R := Eq) (.pure rfl) ?_)
  rintro symbol _ rfl
  exact .evalBinary htarget hl hr symbol part.before.length

/-- **A tree of the grammar that stands in the part** is evaluated alike by itself and, starting
later, within the program. -/
theorem eval_agrees {c : Parser.Category} {n : Node} (h : Parser.HasShape c n)
    (hin : n.StartsIn part.text.length) :
    part.Agrees (Interrupt.Moved part.lines) SameValue (n.eval part.frame)
      ((n.shift part.before.length).eval part.frame) := by
  induction h with
  | @identifier name start =>
    obtain ⟨offset, rfl, hoffset⟩ := hin.start
    exact .locating hoffset (.lookup _)
  | integer | float | string =>
    obtain ⟨offset, rfl, hoffset⟩ := hin.start
    exact .locating hoffset (.pure rfl)
  | group _ ih | noProperty _ ih | noOperand _ ih | noCall _ ih | plain _ ih => exact ih hin
  | @parens n start _ ih =>
    obtain ⟨offset, rfl, hoffset⟩ := hin.start
    rw [Node.shift_branch, List.map_cons, Node.eval, Node.eval]
    exact .locating hoffset (ih (hin.children n List.mem_cons_self)).raised
  | @block ns start | @unquote n start | @property base name place start =>
    obtain ⟨offset, rfl, hoffset⟩ := hin.start
    rw [Node.shift_branch, Node.eval, Node.eval]
    exact .locating hoffset (.fail rfl)
  | @quoted n start _ ih =>
    obtain ⟨offset, rfl, hoffset⟩ := hin.start
    rw [Node.shift_branch, Node.eval, Node.eval]
    have hsame := Node.unplaced_shift part.before.length (.branch .quoted [n] (some ↑offset))
    rw [Node.shift_branch] at hsame
    exact .locating hoffset (.pure (congrArg Value.quoted hsame.symm))
  | operand hshape _ _ ihl ihr | nested hshape _ _ ihl ihr =>
    obtain ⟨offset, rfl, hoffset⟩ := hin.start
    obtain ⟨hlhs, hops⟩ := List.forall_mem_cons.1 hin.children
    have hrhs := List.forall_mem_singleton.1 (List.forall_mem_cons.1 hops).2
    exact binary_agrees hshape hoffset (ihl hlhs) (ihr hrhs)
  | @call callee args start _ _ _ ih ihargs =>
    obtain ⟨offset, rfl, hoffset⟩ := hin.start
    obtain ⟨hcallee, hargs⟩ := List.forall_mem_cons.1 hin.children
    rw [Node.shift_branch, List.map_cons, Node.eval, Node.eval]
    refine .locating hoffset ?_
    refine (ih hcallee).raised.bind fun v v' hv => (Agrees.asNative hv).bind ?_
    rintro f _ rfl
    refine (Agrees.evalAll fun arg harg => (ihargs arg harg (hargs arg harg)).raised).bind ?_
    exact fun vs vs' hvs => .call hvs f

/-- **A program that is part of a larger one** is evaluated alike by itself and within it: both
evaluations yield values, or both are interrupted in the same way. -/
theorem evalAll_outcomes (part : Part) {ns : List Node} (h : Parser.IsProgram part.text ns)
    {m m' : Machine} (hm : part.Matches m m') :
    part.Outcomes (Interrupt.Moved part.lines) SameValues (Node.evalAll part.frame ns m)
      (Node.evalAll part.frame (ns.map (Node.shift part.before.length)) m') := by
  refine Agrees.evalAll (fun n hn => ?_) m m' hm
  exact eval_agrees (h.hasShape n hn) (h.startsIn n hn)

/-- The machines that a program within a larger one starts with. -/
theorem matches_setSource (part : Part) {env : Environment} {m : Machine}
    (hframe : part.frame < env.next) (henv : m.env.unplaced = env.unplaced)
    (hprinted : m.printed.map (List.map Value.unplaced) = part.earlier)
    (hsource : m.env.source? part.frame = some part.whole) :
    part.Matches (.ofEnvironment (env.setSource part.frame part.text)) m where
  env := henv.trans (env.setSource_unplaced part.frame part.text).symm
  printed := hprinted
  text := env.source?_setSource part.frame part.text hframe
  whole := hsource

end Part
end Juxta
