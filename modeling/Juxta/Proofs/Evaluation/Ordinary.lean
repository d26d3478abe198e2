import Juxta.Proofs.Contents
import Juxta.Proofs.Evaluation.FailingPath
import Juxta.Proofs.Parser.Modes

/-!
# Evaluating trees of the grammar

The evaluator accepts all trees, also those that no source has.  On the trees of sources it does
less: it finds no defect, it makes only values of the language, and it fails only in the ways of the
language.

## What is here

* `Eval.Theory` — what is asked of the single steps of evaluations for `HasShape.keeps` and
  `SourceTree.keeps`: all trees of the grammar, and all trees of sources, keep to it.
* `Value.isOrdinary`, `Environment.IsOrdinary` — values of the language, and environments that hold
  no others.
* `FailureClass`, `Cause.class?` — the eight ways in which programs fail.
* `ordinary_theory` — on ordinary environments evaluation stays within the language.
-/

set_option autoImplicit false
namespace Juxta

/-! ## Theories of evaluation -/

/-- What evaluation keeps to, step by step: machines that satisfy `P`, values that satisfy `Q`, and
interrupts that satisfy `I`. -/
structure Eval.Theory (frame : Nat) (P : Machine → Prop) (Q : Value → Prop)
    (I : Interrupt → Prop) : Prop where
  nil : Q .nil
  integer : ∀ n, 0 ≤ n → n ≤ Parser.maxInteger → Q (.int n)
  float : ∀ x, Q (.float x)
  string : ∀ s, Q (.str s)
  quoted : ∀ n, Q (.quoted n)
  lookup : ∀ p, (Eval.lookup frame p).Keeps P Q I
  define : ∀ p v, Q v → (Eval.define frame p v).Keeps P (fun _ => True) I
  operator : ∀ symbol l r, Q l → Q r → (Eval.ofResult (applyOperator symbol l r)).Keeps P Q I
  callee : ∀ v, Q v → (Eval.ofResult v.asNative).Keeps P (fun f => Q (.native f)) I
  call : ∀ f vs, Q (.native f) → (∀ v ∈ vs, Q v) → (f.call vs).Keeps P Q I
  target : I (.failure (.ofCause .expectedIdentifier))
  notImplemented : ∀ k ∈ [Node.Kind.block, .propertyAccess, .unquote],
    I (.failure (.ofCause (.notImplemented k)))
  locate : ∀ f source start, I (.failure f) → I (.failure (f.locate source start))

namespace Parser

variable {frame : Nat} {P : Machine → Prop} {Q : Value → Prop} {I : Interrupt → Prop}
  {c : Category} {n : Node}

/-- The target of an assignment in the grammar is an identifier, or the assignment fails. -/
theorem HasShape.assignmentTarget_keeps (h : HasShape c n)
    (htarget : I (.failure (.ofCause .expectedIdentifier))) :
    (Node.assignmentTarget n).Keeps P (fun _ => True) I := by
  rw [Node.assignmentTarget.eq_def]
  split
  · exact .pure trivial
  · have hpayload := (h.holdsPayload _ (Node.mem_subtrees_self _)).isSome
    cases hpayload
  · exact .fail htarget

/-- An operator between two operands that keep to a theory. -/
theorem binary_keeps {lhs rhs : Node} {op : String} {place start : Option Int}
    (ht : Eval.Theory frame P Q I) (hlhs : HasShape c lhs) (hl : (lhs.eval frame).Keeps P Q I)
    (hr : (rhs.eval frame).Keeps P Q I) :
    ((Node.branch .binary [lhs, operatorLeaf op place, rhs] start).eval frame).Keeps P Q I := by
  have hop : (operatorLeaf op place).leafValue .operator = .ok (.str op) := rfl
  rw [Node.eval_binary hop]
  refine .locating ?_ fun f source => ht.locate f source start
  exact .evalBinary ht.nil (hlhs.assignmentTarget_keeps ht.target) (fun _ p v _ => ht.define p v)
    hl hr (ht.operator _)

/-- The evaluation of nodes that have none fails. -/
theorem notImplemented_keeps (ht : Eval.Theory frame P Q I)
    (hk : n.kind ∈ [.block, .propertyAccess, .unquote]) : (n.eval frame).Keeps P Q I := by
  rw [Node.eval_of_notImplemented hk]
  exact (Eval.Keeps.fail (ht.notImplemented _ hk)).locating fun f source => ht.locate f source _

/-- **Trees of the grammar keep to every theory of evaluation.** -/
theorem HasShape.keeps (ht : Eval.Theory frame P Q I) (h : HasShape c n) :
    (n.eval frame).Keeps P Q I := by
  induction h with
  | @identifier name start =>
    rw [Node.eval]
    exact (ht.lookup _).locating fun f source => ht.locate f source start
  | @integer z start hlow hhigh =>
    rw [Node.eval]
    exact (Eval.Keeps.pure (ht.integer z hlow hhigh)).locating fun f source =>
      ht.locate f source start
  | @float x start =>
    rw [Node.eval]
    exact (Eval.Keeps.pure (ht.float x)).locating fun f source => ht.locate f source start
  | @string body start =>
    rw [Node.eval]
    exact (Eval.Keeps.pure (ht.string body)).locating fun f source => ht.locate f source start
  | group _ ih | noProperty _ ih | noOperand _ ih | noCall _ ih | plain _ ih => exact ih
  | @parens n start _ ih =>
    rw [Node.eval]
    exact ih.locating fun f source => ht.locate f source start
  | block => exact notImplemented_keeps ht (by simp [Node.kind])
  | unquote => exact notImplemented_keeps ht (by simp [Node.kind])
  | property => exact notImplemented_keeps ht (by simp [Node.kind])
  | @quoted n start =>
    rw [Node.eval]
    exact (Eval.Keeps.pure (ht.quoted _)).locating fun f source => ht.locate f source start
  | operand hl _ _ ihl ihr => exact binary_keeps ht hl ihl ihr
  | nested hl _ _ ihl ihr => exact binary_keeps ht hl ihl ihr
  | @call callee args start _ _ _ ih ihargs =>
    rw [Node.eval]
    refine Eval.Keeps.locating ?_ fun f source => ht.locate f source start
    exact ih.bind fun v hv => (ht.callee v hv).bind fun f hf =>
      (Eval.Keeps.evalAll ihargs).bind fun vs hvs => ht.call f vs hf hvs

/-- **Trees of sources keep to every theory of evaluation.** -/
theorem SourceTree.keeps {length : Nat} (ht : Eval.Theory frame P Q I) (h : SourceTree length n) :
    (n.eval frame).Keeps P Q I := by
  cases h with
  | expression hshape _ => exact hshape.keeps ht
  | statements hk hshape _ =>
    have hall := Eval.Keeps.evalAll fun n hn => (hshape n hn).keeps ht
    rcases hk with rfl | rfl
    · rw [Node.eval, Eval.locating_none]
      exact hall.bind fun _ _ => .pure ht.nil
    · rw [Node.eval, Eval.locating_none]
      exact hall.bind fun vs hvs => .pure (getLast_keeps ht.nil hvs)

end Parser

/-! ## Values of the language -/

/-- Whether a value is one of the language.  Only trees built by hand make others. -/
def Value.isOrdinary : Value → Bool
  | unfit _ _ => false
  | _ => true

/-- All names are bound to values of the language. -/
def Bindings.IsOrdinary (b : Bindings) : Prop :=
  ∀ entry ∈ b.entries, entry.2.isOrdinary = true

/-- All frames bind only values of the language. -/
def Environment.IsOrdinary (env : Environment) : Prop :=
  ∀ f ∈ env.frames, f.bindings.IsOrdinary

namespace Environment

variable {env : Environment}

theorem IsOrdinary.define (h : env.IsOrdinary) (i : Nat) (name : Name) {v : Value}
    (hv : v.isOrdinary = true) : (env.define i name v).IsOrdinary :=
  All.define (Q := (·.isOrdinary = true)) h i name hv

theorem IsOrdinary.setSource (h : env.IsOrdinary) (i : Nat) (source : String) :
    (env.setSource i source).IsOrdinary :=
  All.setSource (Q := (·.isOrdinary = true)) h i source

theorem IsOrdinary.get? (h : env.IsOrdinary) {i : Nat} {name : Name} {v : Value}
    (hget : env.get? i name = some v) : v.isOrdinary = true :=
  All.get? (Q := (·.isOrdinary = true)) h hget

end Environment

/-- All constants are values of the language. -/
def Builtins.IsOrdinary (b : Builtins) : Prop :=
  ∀ entry ∈ b.constants, entry.2.isOrdinary = true

theorem Builtins.isOrdinary_standard : Builtins.standard.IsOrdinary := by
  rw [IsOrdinary]
  decide

/-- A fresh root frame binds only values of the language. -/
theorem Builtins.IsOrdinary.environment {b : Builtins} (h : b.IsOrdinary) (source : Option String) :
    (b.environment source).IsOrdinary :=
  Builtins.all_environment (Q := (·.isOrdinary = true)) h (fun _ _ => rfl) source

/-! ## Failures of the language -/

/-- The ways in which a program fails. -/
inductive FailureClass where
  | unboundVariable
  | notCallable
  | expectedIdentifier
  | unsupportedOperator
  | typeError
  | arityError
  | zeroDivision
  | notImplemented
deriving DecidableEq, Repr

/-- The class of a cause.  A node that does not stand for a value, and what the host reports in its
own words, have none. -/
def Cause.class? : Cause → Option FailureClass
  | unbound _ => some .unboundVariable
  | notCallable _ => some .notCallable
  | expectedIdentifier => some .expectedIdentifier
  | unsupportedOperator _ _ _ => some .unsupportedOperator
  | exitCode _ | foreignAnswer _ _ => some .typeError
  | arity _ _ _ | exitArity _ => some .arityError
  | zeroDivision => some .zeroDivision
  | notImplemented _ => some .notImplemented
  | unexpectedNode _ | reported _ => none

/-- The interrupt is one of the language: a failure of one of its classes, or an exit with an
integer. -/
def Interrupt.IsClosed : Interrupt → Prop
  | failure f => f.cause.class?.isSome = true
  | exit code => ∃ n : Int, code = .int n
  | defect _ => False

/-- An operator makes values of the language from such. -/
theorem Operator.isOrdinary_apply {op : Operator} {l r v : Value} (hl : l.isOrdinary = true)
    (hr : r.isOrdinary = true) (h : op.apply l r = .ok v) : v.isOrdinary = true := by
  cases l with
  | unfit => cases hl
  | int a =>
    cases r with
    | unfit => cases hr
    | int b =>
      obtain ⟨n, rfl⟩ := Operator.onInts_map_eq_ok h
      rfl
    | _ => cases h
  | float x =>
    cases r with
    | unfit => cases hr
    | float y =>
      cases h
      rfl
    | _ => cases h
  | str s =>
    cases r with
    | unfit => cases hr
    | str t =>
      rw [Operator.apply] at h
      split at h
      · cases h
        rfl
      · cases h
    | _ => cases h
  | _ =>
    cases r with
    | unfit => cases hr
    | _ => cases h

theorem isOrdinary_applyOperator {symbol : String} {l r v : Value} (hl : l.isOrdinary = true)
    (hr : r.isOrdinary = true) (h : applyOperator symbol l r = .ok v) : v.isOrdinary = true := by
  rw [applyOperator] at h
  split at h
  · exact Operator.isOrdinary_apply hl hr h
  · cases h

section

variable {P : Machine → Prop}

/-- A native function makes a value of the language, and is interrupted in ways of the language. -/
theorem Action.run_ordinary (hprint : ∀ m vs, P m → P { m with printed := vs :: m.printed })
    (name : String) {args : List Value} (hargs : ∀ v ∈ args, v.isOrdinary = true)
    (action : Action) :
    (action.run name args).Keeps P (·.isOrdinary = true) Interrupt.IsClosed := by
  cases action with
  | printLine => exact (Eval.Keeps.ofChange fun m => hprint m args).bind fun _ _ => .pure rfl
  | quit =>
    rcases args with _ | ⟨v, _ | ⟨w, args⟩⟩
    · exact .fail rfl
    · simp only [Action.run]
      cases v with
      | int n => exact .throw ⟨n, rfl⟩
      | unfit type content => cases hargs _ List.mem_cons_self
      | nil | float | str | bool | quoted | native => exact .fail rfl
    · exact .fail rfl
  | nothing | count => exact .pure rfl
  | foreign shown => exact .fail rfl
  | typeOfFirst => cases args <;> exact .pure rfl
  | last => exact .pure (getLast_keeps (Q := (·.isOrdinary = true)) rfl hargs)

theorem Native.call_ordinary (hprint : ∀ m vs, P m → P { m with printed := vs :: m.printed })
    (f : Native) {args : List Value} (hargs : ∀ v ∈ args, v.isOrdinary = true) :
    (f.call args).Keeps P (·.isOrdinary = true) Interrupt.IsClosed := by
  rw [Native.call]
  split
  · split
    · exact f.action.run_ordinary hprint f.name hargs
    · exact .fail rfl
  · exact f.action.run_ordinary hprint f.name hargs

end

/-- **On an ordinary environment, evaluation stays within the language.** -/
theorem ordinary_theory (frame : Nat) :
    Eval.Theory frame (·.env.IsOrdinary) (·.isOrdinary = true) Interrupt.IsClosed where
  nil := rfl
  integer _ _ _ := rfl
  float _ := rfl
  string _ := rfl
  quoted _ := rfl
  lookup p := by
    intro m hm
    rw [Eval.lookup_apply]
    cases hget : p.name?.bind (m.env.get? frame) with
    | none => exact ⟨hm, rfl⟩
    | some v =>
      obtain ⟨name, -, hname⟩ := Option.bind_eq_some_iff.1 hget
      exact ⟨hm, hm.get? hname⟩
  define p v hv := by
    rw [Eval.define]
    cases p.name? with
    | none => exact .pure trivial
    | some name => exact .ofChange fun m hm => hm.define frame name hv
  operator symbol l r hl hr := by
    refine .ofResult (fun v => isOrdinary_applyOperator hl hr) fun cause hcause => ?_
    rcases applyOperator_eq_error hcause with rfl | rfl <;> rfl
  callee v _ := by
    refine .ofResult (fun _ _ => rfl) fun cause hcause => ?_
    cases v with
    | native f => cases hcause
    | _ =>
      cases hcause
      rfl
  call f _ _ hargs := f.call_ordinary (fun _ _ hm => hm) hargs
  target := rfl
  notImplemented _ _ := rfl
  locate f source start h := by
    rw [Interrupt.IsClosed, Failure.cause_locate]
    exact h

end Juxta
