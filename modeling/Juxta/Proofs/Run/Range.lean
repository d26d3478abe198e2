import Juxta.Proofs.Evaluation.Range
import Juxta.Run

/-!
# Integers stay in range in every state

Whatever sources are run one after another at a root frame, as programs or as sequences of
expressions, and whether or not they fail or exit, no integer ever leaves the range of 64 bits:
none that comes up in an evaluation, none that a name is bound to, none that a function gets, and
none that a run exits with.

## What is here

* `Host.runSource` — running a source with the functions of a host; `Host.runSource_standard`.
* `Host.after` — the environment that a history of runs leaves.
* `Host.InRange` — all integers of a run are in range.
* `integers_stay_in_range` — so they are after every history.
-/

set_option autoImplicit false
namespace Juxta

/-! ## Running sources with a host -/

namespace Host

/-- Runs a source at a frame, with the functions of a host. -/
def runSource (h : Host) (options : RunOptions) (env : Environment) (frame : Nat)
    (source : String) : Run :=
  let settings := { Parser.Settings.standard with tracing := options.tracing }
  let parsed := Parser.parseSource settings options.mode source
  match parsed.tree with
  | .error e =>
    { ending := .sourceError e, env, outline := "", printed := "", trace := parsed.trace }
  | .ok node =>
    let (ending, m) := endingOf (h.eval frame node (.ofEnvironment (env.setSource frame source)))
    { ending, env := m.env, outline := if options.showTree then node.outline 0 else "",
      printed := m.output, trace := parsed.trace }

/-- With the functions that the evaluator knows, this is running a source. -/
theorem runSource_standard (options : RunOptions) (env : Environment) (frame : Nat)
    (source : String) :
    standard.runSource options env frame source = Juxta.runSource options env frame source := by
  rw [runSource, Juxta.runSource]
  dsimp only
  cases (Parser.parseSource { Parser.Settings.standard with tracing := options.tracing }
      options.mode source).tree with
  | error e => rfl
  | ok node =>
    simp only [eval_standard, evaluateAt, Option.map_some, Option.getD_some]

/-- The environment that a history of runs at a frame leaves.  Each run finds the environment as the
one before has left it, also after an error or an exit. -/
def after (h : Host) (env : Environment) (frame : Nat) (history : List (RunOptions × String)) :
    Environment :=
  history.foldl (fun env (options, source) => (h.runSource options env frame source).env) env

end Host

/-- The value, if the run ends with one, or the exit code is in range. -/
def Ending.InRange : Ending → Prop
  | value v => v.InRange
  | exit code => ∃ n, code = .int n ∧ IsInt64 n
  | sourceError _ | failure _ | defect _ => True

theorem Eval.Keeps.ending_inRange {P : Machine → Prop} {known : Native → Prop} {x : Eval Value}
    {m : Machine} (h : x.Keeps P (Value.IsSafe known) Interrupt.InRange) (hm : P m) :
    (endingOf (x m)).1.InRange := by
  cases hx : x m with
  | ok v m' => exact (h.of_ok hm hx).2.inRange
  | error i m' =>
    have hi := (h.of_error hm hx).2
    cases i with
    | exit code => exact hi
    | failure | defect => trivial

namespace Host

/-- All integers of a run are in range. -/
structure InRange (h : Host) (options : RunOptions) (env : Environment) (frame : Nat)
    (source : String) (run : Run) : Prop where
  /-- All that is bound before is. -/
  before : env.All Value.InRange
  /-- All that is bound afterwards is, however the run ends. -/
  after : run.env.All Value.InRange
  /-- What the run yields is, and the code with which it exits. -/
  ending : run.ending.InRange
  /-- All that comes up on the way is, the arguments of functions included. -/
  course : ∀ node, Parser.parse options.mode source = .ok node → ∀ e,
    h.Occurs frame node (.ofEnvironment (env.setSource frame source)) e → e.All Value.InRange

variable {h : Host} {known : Native → Prop} {env : Environment}

/-- What comes up in the evaluation of a source is in range. -/
theorem KeepsRange.course (hh : h.KeepsRange known) (henv : env.All (Value.IsSafe known))
    {mode : Parser.Mode} {frame : Nat} {source : String} {node : Node}
    (hnode : Parser.parse mode source = .ok node) {e : Event}
    (he : h.Occurs frame node (.ofEnvironment (env.setSource frame source)) e) :
    e.All Value.InRange := by
  have hparse := Parser.parsesTo_parseSource .standard mode source
  rw [Parser.parse] at hnode
  rw [hnode] at hparse
  have hsafe := (hh.theory frame).occurs he hparse.sourceTree.fits (henv.setSource frame source)
  exact hsafe.mono fun _ hv => hv.inRange

/-- One run keeps integers in range. -/
theorem KeepsRange.runSource (hh : h.KeepsRange known) (henv : env.All (Value.IsSafe known))
    (options : RunOptions) (frame : Nat) (source : String) :
    (h.runSource options env frame source).env.All (Value.IsSafe known) ∧
      h.InRange options env frame source (h.runSource options env frame source) := by
  have hstart : (Machine.ofEnvironment (env.setSource frame source)).env.All
      (Value.IsSafe known) := henv.setSource frame source
  have hbefore : env.All Value.InRange := henv.mono fun _ hv => hv.inRange
  have hparse := Parser.parsesTo_parseSource
    { Parser.Settings.standard with tracing := options.tracing } options.mode source
  rw [Host.runSource]
  dsimp only
  generalize (Parser.parseSource _ options.mode source) = parsed at hparse ⊢
  cases htree : parsed.tree with
  | error e => exact ⟨henv, hbefore, hbefore, trivial, fun _ hnode _ => hh.course henv hnode⟩
  | ok node =>
    rw [htree] at hparse
    have hkeeps := (hh.theory frame).eval_keeps node hparse.sourceTree.fits
    have hafter := hkeeps.machine hstart
    exact ⟨hafter, hbefore, hafter.mono fun _ hv => hv.inRange, hkeeps.ending_inRange hstart,
      fun _ hnode _ => hh.course henv hnode⟩

theorem KeepsRange.after (hh : h.KeepsRange known) (henv : env.All (Value.IsSafe known))
    (frame : Nat) (history : List (RunOptions × String)) :
    (h.after env frame history).All (Value.IsSafe known) :=
  List.foldlRecOn history _ henv fun _ henv entry _ => (hh.runSource henv entry.1 frame entry.2).1

end Host

/-- **Integers stay in 64 bits in every state that can be reached.**  Let the functions of a host
that are known keep integers in range, and let a root frame bind only these and constants in range.
After every history of runs at that frame, in any mode and however they ended, everything that is
bound is in range; and so is everything that comes up in the next run, what it yields or exits with,
and what it leaves.  With the functions that the evaluator knows, these are the runs of sources. -/
theorem integers_stay_in_range {h : Host} {known : Native → Prop} (hh : h.KeepsRange known)
    {b : Builtins} (hconstants : ∀ entry ∈ b.constants, entry.2.IsSafe known)
    (hnatives : ∀ f ∈ b.natives, known f) (text : Option String)
    (history : List (RunOptions × String)) (options : RunOptions) (source : String) :
    let env := h.after (b.environment text) 0 history
    h.InRange options env 0 source (h.runSource options env 0 source) ∧
      Host.standard.runSource = runSource := by
  intro env
  have hstart := Builtins.all_environment hconstants hnatives text
  refine ⟨(hh.runSource (hh.after hstart 0 history) options 0 source).2, ?_⟩
  funext options env frame source
  exact Host.runSource_standard options env frame source

/-- The least integer divided by minus one, with its remainder, in a history with a failure. -/
theorem integers_stay_in_range_least :
    let known : Native → Prop := (· ∈ Builtins.standard.natives)
    let history : List (RunOptions × String) :=
      [(⟨.program, false, false⟩, "least := 0 - 9223372036854775807 - 1\nq := least / (0 - 1)"),
        (⟨.expressions, false, false⟩, "r := least % (0 - 1); 1 / 0; r := 1")]
    let env := Host.standard.after (Builtins.standard.environment none) 0 history
    let options : RunOptions := ⟨.expressions, false, false⟩
    let run := Host.standard.runSource options env 0 "exit (q - 1)"
    Host.standard.KeepsRange known ∧
      ["least", "q", "r"].map (fun name : String => (env.get? 0 name).map Value.text) =
        [some "-9223372036854775808", some "-9223372036854775808", some "0"] ∧
      (match run.ending with
        | .exit code => some code.plain
        | _ => none) = some "9223372036854775807" ∧
      Host.standard.InRange options env 0 "exit (q - 1)" run := by
  intro known history env options run
  have hnatives : ∀ f, known f → f.action ≠ .count := by decide
  have hh : Host.standard.KeepsRange known := Host.standard_keepsRange hnatives
  have hconstants : ∀ entry ∈ Builtins.standard.constants, entry.2.IsSafe known := by
    simp only [Builtins.standard, List.forall_mem_cons, List.not_mem_nil, false_implies,
      implies_true, and_true]
    exact ⟨trivial, trivial⟩
  exact ⟨hh, by decide +kernel, by decide +kernel,
    (integers_stay_in_range hh hconstants (fun _ hf => hf) none history options "exit (q - 1)").1⟩

end Juxta
