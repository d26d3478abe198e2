import Juxta.Proofs.Evaluation.FailingPath
import Juxta.Proofs.Parser.Modes
import Juxta.Run

/-!
# Where a run fails

Whatever source a frame had before, a failure of a run is located in the source that was run, at the
node that raised it: every node of a parsed source but the root of a sequence of statements knows
where it stands, and that root raises nothing by itself.

## What is here

* `RunsTo` — how a run comes to its ending, with one rule for each ending; `runsTo_runSource`.
* `RaisedAt` — a failure that one node of a tree raises, at the place of that node in the source.
* `failure_located` — failures are located where they are raised, and parse errors in the source.
-/

set_option autoImplicit false
namespace Juxta

/-! ## How a run ends -/

/-- `RunsTo options env frame source run`: the source has no tree and the run ends with its error,
or it has one and the run ends as the evaluation of the tree does. -/
inductive RunsTo (options : RunOptions) (env : Environment) (frame : Nat) (source : String) :
    Run → Prop
  | sourceError {e : SourceError} {trace : List Parser.Event}
      (hparse : Parser.ParsesTo Parser.Settings.standard.forms options.mode source (.error e)) :
      RunsTo options env frame source ⟨.sourceError e, env, "", "", trace⟩
  | value {node : Node} {v : Value} {m : Machine} {trace : List Parser.Event}
      (hparse : Parser.ParsesTo Parser.Settings.standard.forms options.mode source (.ok node))
      (heval : node.eval frame (.ofEnvironment (env.setSource frame source)) = .ok v m) :
      RunsTo options env frame source
        ⟨.value v, m.env, if options.showTree then node.outline 0 else "", m.output, trace⟩
  | failure {node : Node} {f : Failure} {m : Machine} {trace : List Parser.Event}
      (hparse : Parser.ParsesTo Parser.Settings.standard.forms options.mode source (.ok node))
      (heval : node.eval frame (.ofEnvironment (env.setSource frame source)) =
        .error (.failure f) m) :
      RunsTo options env frame source
        ⟨.failure f, m.env, if options.showTree then node.outline 0 else "", m.output, trace⟩
  | exit {node : Node} {code : Node.Payload} {m : Machine} {trace : List Parser.Event}
      (hparse : Parser.ParsesTo Parser.Settings.standard.forms options.mode source (.ok node))
      (heval : node.eval frame (.ofEnvironment (env.setSource frame source)) =
        .error (.exit code) m) :
      RunsTo options env frame source
        ⟨.exit code, m.env, if options.showTree then node.outline 0 else "", m.output, trace⟩
  | defect {node : Node} {d : Node.Defect} {m : Machine} {trace : List Parser.Event}
      (hparse : Parser.ParsesTo Parser.Settings.standard.forms options.mode source (.ok node))
      (heval : node.eval frame (.ofEnvironment (env.setSource frame source)) =
        .error (.defect d) m) :
      RunsTo options env frame source
        ⟨.defect d, m.env, if options.showTree then node.outline 0 else "", m.output, trace⟩

theorem runsTo_runSource (options : RunOptions) (env : Environment) (frame : Nat)
    (source : String) : RunsTo options env frame source (runSource options env frame source) := by
  have hparse := Parser.parsesTo_parseSource
    { Parser.Settings.standard with tracing := options.tracing } options.mode source
  rw [runSource]
  dsimp only
  generalize (Parser.parseSource _ options.mode source) = parsed at hparse ⊢
  cases htree : parsed.tree with
  | error e =>
    rw [htree] at hparse
    exact .sourceError hparse
  | ok node =>
    rw [htree] at hparse
    simp only [evaluateAt, Option.map_some, Option.getD_some]
    cases heval : node.eval frame (.ofEnvironment (env.setSource frame source)) with
    | ok v m => exact .value hparse heval
    | error i m =>
      cases i with
      | failure f => exact .failure hparse heval
      | exit code => exact .exit hparse heval
      | defect d => exact .defect hparse heval

/-! ## The node that raises a failure -/

/-- No node raises anything only because it has statements. -/
theorem Raises.kind_ne {frame : Nat} {n : Node} {m : Machine} {cause : Cause}
    (h : Raises frame n m cause) : n.kind ≠ .program ∧ n.kind ≠ .expressions := by
  cases h with
  | unbound | notCallable | call | target | operator => exact ⟨nofun, nofun⟩
  | notImplemented hk =>
    refine ⟨fun heq => ?_, fun heq => ?_⟩
    all_goals
      rw [heq] at hk
      exact absurd hk (by decide)
  | unexpected hk =>
    refine ⟨fun heq => ?_, fun heq => ?_⟩
    all_goals rcases hk with hk | ⟨name, hk⟩ <;> cases heq.symm.trans hk

/-- A node that raises a failure in a tree of a source starts in that source. -/
theorem Parser.SourceTree.exists_start {length frame : Nat} {node raiser : Node} {m : Machine}
    {cause : Cause} (h : SourceTree length node) (hmem : raiser ∈ node.exposed)
    (hraises : Raises frame raiser m cause) :
    ∃ start : Nat, raiser.start = some ↑start ∧ start ≤ length := by
  cases h with
  | expression _ hstarts => exact hstarts raiser (Node.mem_subtrees_of_mem_exposed hmem)
  | @statements k ns hk _ hstarts =>
    have hmem := Node.mem_subtrees_of_mem_exposed hmem
    rw [Node.subtrees, List.mem_cons, mem_subtreesOfAll] at hmem
    rcases hmem with rfl | ⟨n, hn, hmem⟩
    · rcases hk with rfl | rfl
      · exact absurd rfl hraises.kind_ne.1
      · exact absurd rfl hraises.kind_ne.2
    · exact hstarts n hn raiser hmem

/-- The failure of the tree is raised by the node `raiser`, the innermost one on the only failing
path; it is of a kind that raises such failures; and the failure has its place in the source. -/
structure RaisedAt (frame : Nat) (source : String) (node : Node) (m : Machine) (f : Failure)
    (raiser : Node) : Prop where
  path : ∃ outer, FailsAlong frame node m (raiser :: outer) f.cause ∧
    ∀ path cause, FailsAlong frame node m path cause → path = raiser :: outer ∧ cause = f.cause
  kind : f.cause.isRaisedBy raiser.kind = true
  place : ∃ (start : Nat) (q : Position), raiser.start = some ↑start ∧ start ≤ source.length ∧
    Position.ofOffset? source start = some q ∧ f.place = .ofPosition q

/-- The failure of a tree is raised by one of its nodes. -/
theorem exists_raisedAt {frame : Nat} {source : String} {node : Node} {m m' : Machine}
    {f : Failure} (htree : Parser.SourceTree source.length node)
    (hsource : m.env.source? frame = some source)
    (heval : node.eval frame m = .error (.failure f) m') :
    ∃ raiser, RaisedAt frame source node m f raiser := by
  obtain ⟨path, hpath, hplace⟩ := exists_failsAlong heval
  obtain ⟨raiser, outer, m₁, rfl, hraises⟩ := hpath.exists_raises
  obtain ⟨start, hstart, hle⟩ := htree.exists_start
    (hpath.mem_exposed raiser List.mem_cons_self) hraises
  have hq := Position.ofOffset?_of_le hle
  refine ⟨raiser, ⟨outer, hpath, fun path' cause' hpath' => ?_⟩, hraises.isRaisedBy,
    start, _, hstart, hle, hq, ?_⟩
  · exact hpath'.unique hpath
  · have hposition : raiser.position? (some source) =
        some (Position.start.after (source.toList.take start)) := by
      rw [Node.position?, hstart]
      exact hq
    rw [hplace, hsource, placeOn, List.findSome?_cons, hposition]
    rfl

/-- **Every failure is located at the node that raised it, and every parse error in the source.**
Where the run of a source fails, whatever source the frame had before, the tree of the source has
one failing path, and the failure has the place in this source at which the innermost node on that
path starts.  A parse error has an offset in the source, and its position. -/
theorem failure_located (source : String) :
    (∀ (options : RunOptions) (env : Environment) (frame : Nat) (f : Failure),
      frame < env.next → (runSource options env frame source).ending = .failure f →
      ∃ node raiser, Parser.parse options.mode source = .ok node ∧
        RaisedAt frame source node (.ofEnvironment (env.setSource frame source)) f raiser) ∧
    ∀ (settings : Parser.Settings) (mode : Parser.Mode) (e : ParseError),
      (Parser.parseSource settings mode source).tree = .error (.parse e) →
      Parser.IsLocatedIn source e := by
  constructor
  · intro options env frame f hframe hending
    have hrun := runsTo_runSource options env frame source
    generalize runSource options env frame source = run at hrun hending
    cases hrun with
    | sourceError | value | exit | defect => cases hending
    | @failure node f' m trace hparse heval =>
      obtain rfl := Ending.failure.inj hending
      have hsource := env.source?_setSource frame source hframe
      obtain ⟨raiser, hraised⟩ := exists_raisedAt hparse.sourceTree hsource heval
      refine ⟨node, raiser, ?_, hraised⟩
      exact hparse.unique (Parser.parsesTo_parseSource .standard options.mode source)
  · intro settings mode e herror
    have hparse := Parser.parsesTo_parseSource settings mode source
    rw [herror] at hparse
    exact hparse.isLocatedIn

/-- The failure that a run ends with, if it does. -/
def Ending.failure? : Ending → Option Failure
  | failure f => some f
  | _ => none

theorem Ending.eq_failure {e : Ending} {f : Failure} (h : e.failure? = some f) :
    e = .failure f := by
  cases e with
  | failure f' => exact congrArg failure (Option.some.inj h)
  | _ => cases h

/-- The parse error with which a source is rejected, if it is. -/
def SourceError.parse? : Except SourceError Node → Option ParseError
  | .error (parse e) => some e
  | _ => none

theorem SourceError.eq_parse {r : Except SourceError Node} {e : ParseError}
    (h : parse? r = some e) : r = .error (.parse e) := by
  rcases r with (_ | e') | node
  · cases h
  · exact congrArg (Except.error ∘ SourceError.parse) (Option.some.inj h)
  · cases h

/-- A division by zero in an argument, on the second line, in a frame that had another source; and
an operand that is missing at the end. -/
theorem failure_located_division :
    let source := "x := 2\nprintln 1 (x / (1 - 1))"
    let env := Builtins.standard.environment (some "y\n\n")
    let run := runSource ⟨.program, false, false⟩ env 0 source
    let e : ParseError := ⟨"value", "end of input", some 6, some ⟨2, 5⟩⟩
    0 < env.next ∧ run.ending.error? = some "integer division by zero (line 2, col 12)" ∧
      (∃ f node raiser, run.ending = .failure f ∧ Parser.parse .program source = .ok node ∧
        RaisedAt 0 source node (.ofEnvironment (env.setSource 0 source)) f raiser) ∧
      Parser.parse .program "f\n(1 +" = .error (.parse e) ∧ Parser.IsLocatedIn "f\n(1 +" e := by
  intro source env run e
  have hmessage : run.ending.error? = some "integer division by zero (line 2, col 12)" := by
    decide +kernel
  have hfails : run.ending.failure?.isSome = true := by decide +kernel
  have hparse : SourceError.parse? (Parser.parse .program "f\n(1 +") = some e := by decide +kernel
  obtain ⟨f, hf⟩ := Option.isSome_iff_exists.1 hfails
  have hending := Ending.eq_failure hf
  have herror := SourceError.eq_parse hparse
  obtain ⟨node, raiser, hnode, hraised⟩ :=
    (failure_located source).1 ⟨.program, false, false⟩ env 0 f Nat.zero_lt_one hending
  exact ⟨Nat.zero_lt_one, hmessage, ⟨f, node, raiser, hending, hnode, hraised⟩, herror,
    (failure_located "f\n(1 +").2 .standard .program e herror⟩

end Juxta
