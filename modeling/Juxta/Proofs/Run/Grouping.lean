import Juxta.Proofs.Evaluation.Settling
import Juxta.Proofs.Run.Diagnostics

/-!
# Parentheses only group

Parentheses shape the tree of a source, and then they do nothing: a run would end in the same way,
and leave and write the same, if what is in them stood in their place.  Two kinds of parentheses
make a difference.  Those in a quotation are part of a value, and those on the left of an assignment
are no identifier, even with one in them.

Parentheses stand in another place than what is in them.  No failure shows it, since each comes out
of the inner expression with the place of a node in there.

## What is here

* `Node.ungrouped` — the tree without its parentheses.
* `Node.agree_eval_ungroup` — it evaluates as the tree does.
* `parentheses_only_group` — the same for runs of sources.
-/

set_option autoImplicit false
namespace Juxta

/-! ## Trees without parentheses -/

namespace Node

/-- Whether the node is the operator of assignments. -/
def isAssignment (op : Node) : Bool :=
  match op.leafValue .operator with
  | .ok p => p.plain = ":="
  | .error _ => false

mutual

/-- The tree with what is in them in place of all parentheses, except for those in a quotation and
those on the left of an assignment.  Whether the tree itself stands there is given. -/
def ungroup (isTarget : Bool) : Node → Node
  | leaf k p s => leaf k p s
  | branch k cs s =>
    match k, cs with
    | .quoted, cs => branch .quoted cs s
    | .parenthesis, inner :: rest =>
      if isTarget then branch .parenthesis (ungroupAll (inner :: rest)) s else ungroup false inner
    | .binary, [lhs, op, rhs] =>
      branch .binary [ungroup op.isAssignment lhs, op, ungroup false rhs] s
    | k, cs => branch k (ungroupAll cs) s

/-- The trees with what is in them in place of all parentheses. -/
def ungroupAll : List Node → List Node
  | [] => []
  | n :: ns => ungroup false n :: ungroupAll ns

end

/-- The tree without its parentheses. -/
def ungrouped (n : Node) : Node :=
  n.ungroup false

theorem length_ungroupAll (ns : List Node) : (ungroupAll ns).length = ns.length := by
  induction ns with
  | nil => rfl
  | cons n ns ih => rw [ungroupAll, List.length_cons, List.length_cons, ih]

/-- Without its own parentheses or with them: what stands on the left of an assignment is the same
identifier, or none as before. -/
theorem assignmentTarget_ungroup (n : Node) :
    (n.ungroup true).assignmentTarget = n.assignmentTarget := by
  cases n with
  | leaf => rw [ungroup]
  | branch k cs s =>
    cases k with
    | binary => rcases cs with _ | ⟨lhs, _ | ⟨op, _ | ⟨rhs, _ | ⟨extra, rest⟩⟩⟩⟩ <;> rfl
    | parenthesis => cases cs <;> rfl
    | _ => rfl

theorem isAssignment_of_leafValue {op : Node} {p : Payload} (h : op.leafValue .operator = .ok p) :
    op.isAssignment = decide (p.plain = ":=") := by
  rw [isAssignment, h]

end Node

/-! ## Their evaluation -/

namespace Node

variable {frame length : Nat} {env : Environment}

mutual

/-- **A tree evaluates as it does without its parentheses**, if it stands in the source. -/
theorem agree_eval_ungroup (hlength : ∀ text ∈ env.source? frame, length ≤ text.length) :
    ∀ (n : Node) (isTarget : Bool), n.StartsIn length →
      Eval.Agree (Machine.HasSourcesOf env) ((n.ungroup isTarget).eval frame) (n.eval frame)
  | leaf k p s, _, _ => by
    rw [ungroup]
    exact .refl _ _
  | branch k cs s, isTarget, hstarts => by
    have hleaves := evalAll_leaves (Machine.stable_hasSourcesOf frame env) cs
    have hall := agree_evalAll_ungroupAll hlength cs hstarts.children
    cases k with
    | program => exact .statements (.inl rfl) s hleaves hall
    | expressions => exact .statements (.inr rfl) s hleaves hall
    | functionCall =>
      cases cs with
      | nil => exact .refl _ _
      | cons callee args =>
        have hcs := hstarts.children
        have hcallee := agree_eval_ungroup hlength callee false (hcs callee List.mem_cons_self)
        have hargs := agree_evalAll_ungroupAll hlength args fun a ha =>
          hcs a (List.mem_cons_of_mem _ ha)
        show Eval.Agree _ (eval frame (branch _ (ungroupAll (callee :: args)) s)) _
        rw [ungroupAll, eval, eval]
        refine .locating frame s <| .bind (callee.hasSourcesOf_eval frame env) hcallee fun v => ?_
        refine .bind (Eval.Leaves.ofResult v.asNative) (.refl _ _) fun f => ?_
        exact .bind (evalAll_leaves (Machine.stable_hasSourcesOf frame env) args) hargs
          fun _ => .refl _ _
    | binary =>
      rcases cs with _ | ⟨lhs, _ | ⟨op, _ | ⟨rhs, _ | ⟨extra, rest⟩⟩⟩⟩
      case cons.cons.cons.nil =>
        have hcs := hstarts.children
        have hl := agree_eval_ungroup hlength lhs op.isAssignment (hcs lhs (by simp))
        have hr := agree_eval_ungroup hlength rhs false (hcs rhs (by simp))
        rw [ungroup, eval, eval]
        refine .locating frame s ?_
        cases hop : op.leafValue .operator with
        | error d =>
          rw [operatorSymbol, hop]
          exact .refl _ _
        | ok p =>
          -- Only the target of an assignment is looked at as a tree; other operands are evaluated.
          rw [operatorSymbol, hop, pure_bind, pure_bind]
          refine .evalBinary (lhs.hasSourcesOf_eval frame env) (rhs.hasSourcesOf_eval frame env)
            (fun hassign => ?_) hl hr
          rw [isAssignment_of_leafValue hop, decide_eq_true hassign]
          exact lhs.assignmentTarget_ungroup
      all_goals
        show Eval.Agree _ (eval frame (branch _ (ungroupAll _) s)) _
        rw [eval_binary_of_length_ne (by simp [length_ungroupAll]),
          eval_binary_of_length_ne (by simp), length_ungroupAll]
        exact .refl _ _
    | quoted =>
      rw [ungroup]
      exact .refl _ _
    | parenthesis =>
      cases cs with
      | nil => exact .refl _ _
      | cons inner rest =>
        have hinner : inner.StartsIn length := hstarts.children inner List.mem_cons_self
        have hsame := agree_eval_ungroup hlength inner false hinner
        have hsettles : Eval.Settles frame env (inner.eval frame) :=
          settles_eval (hinner.standsIn hlength)
        rw [ungroup, eval]
        split
        · rw [ungroupAll, eval]
          exact .locating frame s hsame
        -- The parentheses that are gone gave no failure a place: what is in them has done so.
        · exact hsame.trans (hsettles.agree_locating s).symm
    | identifier | integer | float | string | block | propertyAccess | unquote | operator
    | other name =>
      show Eval.Agree _ (eval frame (branch _ (ungroupAll cs) s)) _
      rw [eval, eval]
      exact .refl _ _

theorem agree_evalAll_ungroupAll (hlength : ∀ text ∈ env.source? frame, length ≤ text.length) :
    ∀ ns : List Node, (∀ n ∈ ns, n.StartsIn length) →
      Eval.Agree (Machine.HasSourcesOf env) (evalAll frame (ungroupAll ns)) (evalAll frame ns)
  | [], _ => .refl _ _
  | n :: ns, hstarts => by
    obtain ⟨hn, hns⟩ := List.forall_mem_cons.1 hstarts
    rw [ungroupAll, evalAll, evalAll]
    exact .bind (n.hasSourcesOf_eval frame env) (agree_eval_ungroup hlength n false hn) fun _ =>
      .bind (evalAll_leaves (Machine.stable_hasSourcesOf frame env) ns)
        (agree_evalAll_ungroupAll hlength ns hns) fun _ => .refl _ _

end

end Node

/-! ## Runs -/

/-- A source that is given to a frame is the only one that it can have. -/
theorem Environment.eq_of_source?_setSource {env : Environment} {frame : Nat} {source text : String}
    (h : (env.setSource frame source).source? frame = some text) : text = source := by
  have hlt : frame < env.next := by
    have hnext := Environment.lt_next_of_source? _ _ h
    rwa [Environment.next, Environment.setSource, Environment.length_updateIn] at hnext
  rw [env.source?_setSource frame source hlt] at h
  exact (Option.some.inj h).symm

/-- A run of a source ends as the evaluation of its tree, with the same effects. -/
theorem runSource_of_parse {options : RunOptions} {source : String} {node : Node}
    (h : Parser.parse options.mode source = .ok node) (env : Environment) (frame : Nat) :
    let run := runSource options env frame source
    let evaluated := evaluateAt env frame (some source) node
    run.ending = evaluated.ending ∧ run.env = evaluated.env ∧ run.printed = evaluated.printed := by
  have htree := (parseSource_standard options.tracing options.mode source).trans h
  simp [runSource, htree]

/-- The tree of a source evaluates as it does without its parentheses. -/
theorem Parser.SourceTree.agree_eval_ungrouped {frame length : Nat} {env : Environment}
    {node : Node} (h : SourceTree length node)
    (hlength : ∀ text ∈ env.source? frame, length ≤ text.length) :
    Eval.Agree (Machine.HasSourcesOf env) (node.ungrouped.eval frame) (node.eval frame) := by
  cases h with
  | expression _ hstarts => exact node.agree_eval_ungroup hlength false hstarts
  | @statements k ns hk _ hstarts =>
    have hleaves := Node.evalAll_leaves (Machine.stable_hasSourcesOf frame env) ns
    have hsame := Eval.Agree.statements hk none hleaves
      (Node.agree_evalAll_ungroupAll hlength ns hstarts)
    rcases hk with rfl | rfl <;> exact hsame

/-- **Parentheses only group.**  If the tree of a source is evaluated without its parentheses, at
any frame, then it ends as the run of the source does: with the same value, the same failure at the
same place, or the same exit code.  It leaves the same environment and prints the same. -/
theorem parentheses_only_group (options : RunOptions) {source : String} {node : Node}
    (h : Parser.parse options.mode source = .ok node) (env : Environment) (frame : Nat) :
    let run := runSource options env frame source
    let ungrouped := evaluateAt env frame (some source) node.ungrouped
    ungrouped.ending = run.ending ∧ ungrouped.env = run.env ∧ ungrouped.printed = run.printed := by
  intro run ungrouped
  have htree : Parser.SourceTree source.length node := by
    have hparse := Parser.parsesTo_parseSource .standard options.mode source
    rw [show (Parser.parseSource .standard options.mode source).tree = .ok node from h] at hparse
    exact hparse.sourceTree
  have hlength : ∀ text ∈ (env.setSource frame source).source? frame, source.length ≤ text.length :=
    fun text htext => (Environment.eq_of_source?_setSource htext) ▸ le_rfl
  have heval : node.ungrouped.eval frame (.ofEnvironment (env.setSource frame source)) =
      node.eval frame (.ofEnvironment (env.setSource frame source)) :=
    htree.agree_eval_ungrouped hlength _ fun _ => rfl
  have hsame : evaluateAt env frame (some source) node.ungrouped =
      evaluateAt env frame (some source) node := by
    simp only [evaluateAt, Option.map_some, Option.getD_some, heval]
  obtain ⟨hending, henv, hprinted⟩ := runSource_of_parse h env frame
  exact ⟨(congrArg Run.ending hsame).trans hending.symm, (congrArg Run.env hsame).trans henv.symm,
    (congrArg Run.printed hsame).trans hprinted.symm⟩

/-- Ten parentheses, of which those in a quotation and one on the left of an assignment stay, where
the run ends. -/
theorem parentheses_only_group_target :
    let source := "(x := (1))\nprintln ((x) + (2)) :(x)\n((x)) := (x / (0))"
    let env := Builtins.standard.environment none
    let run := runSource ⟨.expressions, false, false⟩ env 0 source
    let parentheses (n : Node) := n.subtrees.countP (·.kind = .parenthesis)
    run.ending.error? = some "expected identifier on left side of assignment (line 3, col 1)" ∧
      run.printed = "3\x7bQuoted [\x7bParenthesis [\x7bIdentifier x\x7d]\x7d]\x7d\n" ∧
      ∃ node,
        let ungrouped := evaluateAt env 0 (some source) node.ungrouped
        Parser.parse .expressions source = .ok node ∧
          (parentheses node, parentheses node.ungrouped) = (10, 2) ∧
          ungrouped.ending = run.ending ∧ ungrouped.env = run.env ∧
          ungrouped.printed = run.printed := by
  intro source env run parentheses
  have herror : run.ending.error? =
      some "expected identifier on left side of assignment (line 3, col 1)" := by decide +kernel
  have hprinted : run.printed =
      "3\x7bQuoted [\x7bParenthesis [\x7bIdentifier x\x7d]\x7d]\x7d\n" := by decide +kernel
  have hcounts : (Parser.parse .expressions source).toOption.map
      (fun node => (parentheses node, parentheses node.ungrouped)) = some (10, 2) := by
    decide +kernel
  refine ⟨herror, hprinted, ?_⟩
  cases hparse : Parser.parse .expressions source with
  | error e =>
    rw [hparse] at hcounts
    cases hcounts
  | ok node =>
    rw [hparse] at hcounts
    exact ⟨node, rfl, Option.some.inj hcounts,
      parentheses_only_group ⟨.expressions, false, false⟩ hparse env 0⟩

end Juxta
