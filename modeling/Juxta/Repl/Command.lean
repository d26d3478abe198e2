import Juxta.Text.Blank

/-!
# Commands of the interactive session

A line that starts with a slash is a command to the session and not a source.

## What is here

* `Repl.Command` — the commands, and how they are read from a line.
* `Repl.toggle` — what an `[on|off]` argument does to a switch.
* `Repl.complete` — the completions of a command that is being typed.
-/

set_option autoImplicit false
namespace Juxta.Repl

/-- A command to the session, with the text after its name where that matters. -/
inductive Command where
  | clear
  | tree (arg : String)
  | traceback (arg : String)
  | reset
  | unknown (name : String)
deriving DecidableEq, Repr

/-- The command on a line, if the line holds one. -/
def Command.ofLine? (line : String) : Option Command :=
  let stripped := Text.strip line
  if stripped.startsWith "/" then
    let (name, arg) := Text.splitFirst stripped
    some <|
      if name = "/clear" then .clear
      else if name = "/ast" then .tree arg
      else if name = "/py-traceback" then .traceback arg
      else if name = "/reset" then .reset
      else .unknown name
  else none

/-- The new state of a switch: an argument sets it, in either case, and no argument flips it.
Any other argument makes no sense. -/
def toggle (arg : String) (current : Bool) : Option Bool :=
  let word := arg.map Char.toLower
  if ["on", "1", "true", "yes"].contains word then some true
  else if ["off", "0", "false", "no"].contains word then some false
  else if word.isEmpty then some !current
  else none

/-- The commands with their descriptions, in the order in which they are offered. -/
def commandTable : List (String × String) :=
  [("/ast", "Toggle printing the AST of each input"),
    ("/clear", "Clear the terminal screen"),
    ("/py-traceback", "Toggle Python traceback on errors"),
    ("/reset", "Reset the REPL environment")]

/-- A way to complete what has been typed: the whole command, where it starts relative to the
cursor, and its description. -/
structure Completion where
  text : String
  start : Int
  description : String
deriving DecidableEq, Repr

/-- The characters before the cursor.  A negative cursor counts from the end. -/
def beforeCursor (cs : List Char) (cursor : Int) : List Char :=
  if cursor < 0 then cs.take (cs.length - cursor.natAbs) else cs.take cursor.toNat

/-- The commands that start with what stands before the cursor, if that starts with a slash. -/
def complete (text : String) (cursor : Int) : List Completion :=
  let typed := beforeCursor text.toList cursor
  if typed.head? = some '/' then
    (commandTable.filter fun (name, _) => typed.isPrefixOf name.toList).map
      fun (name, description) => ⟨name, -typed.length, description⟩
  else []

end Juxta.Repl
