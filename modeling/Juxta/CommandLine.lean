import Juxta.Run
import Juxta.Text.Newlines
import Juxta.Variables

/-!
# The command line

The command line runs one program: the text of a file, of the standard input, or of the argument
itself.

## What is here

* `CommandLine.Options` — what the arguments ask for.
* `CommandLine.Surroundings` — what the command line can read; each reading can fail.
* `CommandLine.Input.load` — the text of the program.
* `CommandLine.execute` — the run of a program text; `CommandLine.run` — all of it, from the
  arguments to the output.
* `errorReport` — how an error is shown.
-/

set_option autoImplicit false
namespace Juxta

/-- How an error is shown: its message and, on demand, a traceback of the host, of which only the
place is kept. -/
def errorReport (traceback : Bool) (message : String) : String :=
  "Error: " ++ message ++ "\n" ++
    (if traceback then "\nPython traceback:\n<traceback>\n" else "")

namespace CommandLine

/-- What the arguments ask for. -/
structure Options where
  showTree : Bool
  traceParse : Bool
  /-- The argument that names or is the program. -/
  program : Option String
deriving DecidableEq, Repr

/-- Reads the arguments from left to right.  A second program is an error with this text. -/
def Options.read (options : Options) : List String → Except String Options
  | [] => .ok options
  | "--ast" :: rest => read { options with showTree := true } rest
  | "--trace-parse" :: rest => read { options with traceParse := true } rest
  | arg :: rest =>
    match options.program with
    | none => read { options with program := some arg } rest
    | some _ => .error ("Unexpected argument: " ++ arg)

/-- What a list of arguments asks for. -/
def Options.ofArgs (args : List String) : Except String Options :=
  read { showTree := false, traceParse := false, program := none } args

/-- Where the program comes from. -/
inductive Input where
  | standardInput
  /-- The file with this name if anything has the name, else the text itself. -/
  | argument (text : String)
deriving DecidableEq, Repr

/-- Where the program comes from: without an argument, or with an empty one or a dash, from the
standard input. -/
def Options.input (options : Options) : Input :=
  match options.program with
  | none | some "" | some "-" => .standardInput
  | some text => .argument text

/-- An error that the host raises when something cannot be read: its class and its text. -/
structure HostError where
  kind : String
  message : String
deriving DecidableEq, Repr

/-- What the command line can read.  The host can refuse each of it: the standard input or a file
whose bytes are no text, a name that is too long or may not be looked up, a folder in the place of a
file. -/
structure Surroundings where
  stdin : Except HostError String
  /-- Whether something in the file system has the name. -/
  isPath : String → Except HostError Bool
  /-- The text of the file with the name. -/
  readText : String → Except HostError String
  vars : Variables

/-- How the command ends. -/
inductive Status where
  | finished (code : Nat)
  /-- The program called the exit function. -/
  | exit (code : Node.Payload)
  /-- There was nothing to run. -/
  | abort (message : String)
  /-- The program could not be read.  Nothing in the command catches the error. -/
  | hostError (e : HostError)

/-- The text of a program, or the status with which the command ends without one.  Line ends are
unified in what is read, not in an argument. -/
def Input.load (world : Surroundings) : Input → Except Status String
  | standardInput =>
    match world.stdin with
    | .error e => .error (.hostError e)
    | .ok content =>
      if content.isEmpty then .error (.abort "No input provided on stdin")
      else .ok (Text.unifyNewlines content)
  | argument text =>
    match world.isPath text with
    | .error e => .error (.hostError e)
    | .ok false => .ok text
    | .ok true =>
      match world.readText text with
      | .error e => .error (.hostError e)
      | .ok content => .ok (Text.unifyNewlines content)

/-- A finished command. -/
structure Outcome where
  status : Status
  stdout : String
  stderr : String

/-- The trace of a parse as the command writes it. -/
def traceText (trace : List Parser.Event) : String :=
  String.join (trace.map fun event => "ergolas.parser: " ++ event.text ++ "\n")

/-- Runs the text of a program in a fresh environment with the given builtins. -/
def execute (builtins : Builtins) (options : Options) (vars : Variables) (program : String) :
    Outcome :=
  let run := runSource
    { mode := .program
      showTree := options.showTree
      tracing := options.traceParse || vars.isOn Variables.parseTrace }
    (builtins.environment (some program)) 0 program
  let report := (run.ending.error?.map (errorReport (vars.isOn Variables.traceback))).getD ""
  { status :=
      match run.ending with
      | .value _ => .finished 0
      | .exit code => .exit code
      | .sourceError _ | .failure _ | .defect _ => .finished 1
    stdout := run.output
    stderr := traceText run.trace ++ report }

/-- The program that the arguments ask for, or the status with which the command ends without
one. -/
def load (args : List String) (world : Surroundings) : Except Status (Options × String) :=
  match Options.ofArgs args with
  | .error message => .error (.abort message)
  | .ok options => (options.input.load world).map fun program => (options, program)

/-- The command, from its arguments to its output. -/
def run (builtins : Builtins) (args : List String) (world : Surroundings) : Outcome :=
  match load args world with
  | .ok (options, program) => execute builtins options world.vars program
  | .error status => { status, stdout := "", stderr := "" }

end CommandLine
end Juxta
