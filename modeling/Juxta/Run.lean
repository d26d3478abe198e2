import Juxta.Evaluation
import Juxta.Parser.Source

/-!
# Running sources

A source is parsed and then evaluated at a frame.  On demand the outline of its tree is written
before it is evaluated.

## What is here

* `Ending` — how a run ends.
* `Run` — a finished run: its ending, the environment that it leaves, and what it wrote.
* `evaluateAt` — running a tree; `runSource` — running a source; `runSources` — running one source
  after another.
-/

set_option autoImplicit false
namespace Juxta

/-- How a run ends. -/
inductive Ending where
  | value (v : Value)
  | sourceError (e : SourceError)
  | failure (f : Failure)
  | exit (code : Node.Payload)
  | defect (d : Node.Defect)

/-- The text of the error that a run of a source ends with, if it does. -/
def Ending.error? : Ending → Option String
  | sourceError e => some e.message
  | failure f => some f.message
  | defect d => some d.message
  | value _ | exit _ => none

/-- A finished run. -/
structure Run where
  ending : Ending
  env : Environment
  /-- The outline of the tree, if it was asked for. -/
  outline : String
  /-- What the evaluation printed. -/
  printed : String
  /-- The trace of the parse. -/
  trace : List Parser.Event

/-- Everything that a run wrote. -/
def Run.output (r : Run) : String :=
  r.outline ++ r.printed

/-- How an evaluation ended, and the machine that it left. -/
def endingOf : EStateM.Result Interrupt Machine Value → Ending × Machine
  | .ok v m => (.value v, m)
  | .error (.failure f) m => (.failure f, m)
  | .error (.exit code) m => (.exit code, m)
  | .error (.defect d) m => (.defect d, m)

/-- Evaluates a tree at a frame, which first gets the given source text, if there is one. -/
def evaluateAt (env : Environment) (frame : Nat) (source : Option String) (node : Node) : Run :=
  let env := (source.map (env.setSource frame)).getD env
  let (ending, m) := endingOf (node.eval frame (.ofEnvironment env))
  { ending, env := m.env, outline := "", printed := m.output, trace := [] }

/-- How a source is run. -/
structure RunOptions where
  mode : Parser.Mode
  /-- Whether the outline of the tree is written. -/
  showTree : Bool
  /-- Whether the parse is traced. -/
  tracing : Bool

/-- Runs a source at a frame.  A source that has no tree leaves the environment as it is. -/
def runSource (options : RunOptions) (env : Environment) (frame : Nat) (source : String) : Run :=
  let settings := { Parser.Settings.standard with tracing := options.tracing }
  let parsed := Parser.parseSource settings options.mode source
  match parsed.tree with
  | .error e =>
    { ending := .sourceError e, env, outline := "", printed := "", trace := parsed.trace }
  | .ok node =>
    { evaluateAt env frame (some source) node with
      outline := if options.showTree then node.outline 0 else ""
      trace := parsed.trace }

/-- Runs sources one after another at the same frame.  Each finds the environment as the one before
has left it, also after an error. -/
def runSources (options : RunOptions) (env : Environment) (frame : Nat) : List String → List Run
  | [] => []
  | source :: rest =>
    let run := runSource options env frame source
    run :: runSources options run.env frame rest

end Juxta
