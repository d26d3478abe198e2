import Juxta.CommandLine
import Juxta.Highlight
import Juxta.Repl.Command

/-!
# The interactive session

A session reads lines and evaluates each at one and the same frame.  Errors are reported, and the
session goes on; only the exit function and the end of the input end it.

## What is here

* `Repl.Session` — what a session keeps from line to line.
* `Repl.Answer` — what a session has to say to a line; `Repl.Answer.output` — how that is shown.
* `Repl.Session.command` — carrying out a command; `Repl.Session.evaluate` — evaluating a source.
* `Repl.Session.step` — answering a line; `Repl.Session.answers` — answering all lines.
-/

set_option autoImplicit false
namespace Juxta.Repl

/-! ## Sessions and answers -/

/-- What a session keeps from line to line: what its root frame binds from the start, the
environment, and two switches. -/
structure Session where
  builtins : Builtins
  env : Environment
  showTree : Bool
  traceback : Bool

/-- The environment of a fresh session: a root frame. -/
def freshEnvironment (builtins : Builtins) : Environment :=
  builtins.environment (some "")

/-- The frame at which a session evaluates. -/
def frame : Nat := 0

/-- A fresh session. -/
def Session.start (builtins : Builtins) (vars : Variables) : Session where
  builtins := builtins
  env := freshEnvironment builtins
  showTree := false
  traceback := vars.isOn Variables.traceback

/-- What a session has to say. -/
inductive Answer where
  /-- The greeting before the first line. -/
  | banner
  /-- Nothing: the line was blank. -/
  | silence
  /-- There was an interruption at the prompt, in place of a line. -/
  | interruption
  /-- The screen is cleared. -/
  | clear
  /-- A command says what it did. -/
  | notice (text : String)
  /-- A command was not understood. -/
  | complaint (text : String)
  /-- A source was run; whether an error comes with a traceback. -/
  | evaluated (run : Run) (traceback : Bool)
  /-- The input has ended. -/
  | farewell

/-- The exit code with which a line ended the session. -/
def Answer.exitCode? : Answer → Option Node.Payload
  | evaluated run _ =>
    match run.ending with
    | .exit code => some code
    | _ => none
  | _ => none

/-! ## Answering lines -/

/-- A switch in words. -/
def onOff (b : Bool) : String :=
  if b then "on" else "off"

/-- Carries out a command. -/
def Session.command (s : Session) : Command → Session × Answer
  | .clear => (s, .clear)
  | .tree arg =>
    match toggle arg s.showTree with
    | none => (s, .complaint "Usage: /ast [on|off]")
    | some b => ({ s with showTree := b }, .notice ("AST dump: " ++ onOff b))
  | .traceback arg =>
    match toggle arg s.traceback with
    | none => (s, .complaint "Usage: /py-traceback [on|off]")
    | some b => ({ s with traceback := b }, .notice ("Python traceback: " ++ onOff b))
  | .reset => ({ s with env := freshEnvironment s.builtins }, .notice "Environment reset.")
  | .unknown name => (s, .complaint ("Unknown command: " ++ name))

/-- Evaluates a source at the frame of the session. -/
def Session.evaluate (s : Session) (source : String) : Session × Answer :=
  let run := runSource { mode := .expressions, showTree := s.showTree, tracing := false }
    s.env frame source
  ({ s with env := run.env }, .evaluated run s.traceback)

/-- The characters that are removed from a line: invisible ones, which come with pasted text, and
carriage returns. -/
def isInvisible (c : Char) : Bool :=
  ['\u200b', '\u200c', '\u200d', '\ufeff', '\u00a0', '\r'].contains c

/-- A line without its invisible characters. -/
def normalize (line : String) : String :=
  String.ofList (line.toList.filter (!isInvisible ·))

/-- Answers a line: a blank one not at all, a command by carrying it out, and any other by
evaluating it.  An interruption at the prompt, in place of a line, is only noted. -/
def Session.step (s : Session) : Option String → Session × Answer
  | none => (s, .interruption)
  | some line =>
    let text := normalize line
    if (Text.strip text).isEmpty then (s, .silence)
    else
      match Command.ofLine? text with
      | some command => s.command command
      | none => s.evaluate text

/-- The answers to the given lines, up to one that ends the session, and after the last line a
farewell. -/
def Session.answers (s : Session) : List (Option String) → List Answer
  | [] => [.farewell]
  | line :: rest =>
    let (session, answer) := s.step line
    if answer.exitCode?.isSome then [answer] else answer :: session.answers rest

/-- A whole session: the banner, and the answers to the lines. -/
def transcript (builtins : Builtins) (vars : Variables) (lines : List (Option String)) :
    List Answer :=
  .banner :: (Session.start builtins vars).answers lines

/-! ## Showing answers -/

/-- What a session shows on the screen besides plain text. -/
inductive Display where
  | fragments (line : List Fragment)
  | clear
deriving DecidableEq, Repr

/-- What a session shows in answer to a line. -/
structure Output where
  stdout : String
  stderr : String
  display : List Display
deriving DecidableEq, Repr

/-- The greeting of a session. -/
def greeting : Fragment :=
  ⟨"italic", "ergolas repl: type 'exit <number>' or press Ctrl-D to quit, / for commands"⟩

/-- How a value is echoed: nil is not. -/
def echo : Value → List Display
  | .nil => []
  | v => [.fragments [⟨"ansigreen", v.echo⟩]]

/-- How an answer is shown. -/
def Answer.output : Answer → Output
  | banner => ⟨"", "", [.fragments [greeting]]⟩
  | silence => ⟨"", "", []⟩
  | interruption => ⟨"KeyboardInterrupt\n", "", []⟩
  | clear => ⟨"", "", [.clear]⟩
  | notice text => ⟨text ++ "\n", "", []⟩
  | complaint text => ⟨"", text ++ "\n", []⟩
  | evaluated run traceback =>
    { stdout := run.output
      stderr := (run.ending.error?.map (errorReport traceback)).getD ""
      display :=
        match run.ending with
        | .value v => echo v
        | _ => [] }
  | farewell => ⟨"\n", "", []⟩

end Juxta.Repl
