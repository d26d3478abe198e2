import Juxta.CommandLine

/-!
# The program

Reads what the command line needs, runs it, and writes what it answers.
-/

set_option autoImplicit false
namespace Juxta.Main

open CommandLine (HostError)

/-- The rest of a stream. -/
partial def readAll (stream : IO.FS.Stream) (read : ByteArray) : IO ByteArray := do
  let bytes ← stream.read 65536
  if bytes.isEmpty then pure read else readAll stream (read ++ bytes)

/-- An error of the file system. -/
def fileError (e : IO.Error) : HostError :=
  ⟨"OSError", toString e⟩

/-- The text that an action reads, unless the host refuses to read it or the bytes are no text. -/
def decoded (action : IO ByteArray) : IO (Except HostError String) := do
  try
    match String.fromUTF8? (← action) with
    | some text => return .ok text
    | none => return .error ⟨"UnicodeDecodeError", "the bytes that were read are not UTF-8"⟩
  catch e =>
    return .error (fileError e)

/-- Whether an error says that nothing has the name: there is no such file, a folder on the way to
it is none, or the links on the way lead nowhere. -/
def isAbsence : IO.Error → Bool
  | .noFileOrDirectory .. => true
  | .inappropriateType _ code _ | .invalidArgument _ code _ => [9, 20, 40].contains code
  | _ => false

/-- Whether something in the file system has a name.  Folders can be opened as well as files. -/
def testPath (name : String) : IO (Except HostError Bool) := do
  try
    let _ ← IO.FS.Handle.mk name .read
    return .ok true
  catch e =>
    return if isAbsence e then .ok false else .error (fileError e)

/-- The variables that the command line asks for. -/
def readVariables : IO Variables := do
  let names := [Variables.traceback, Variables.parseTrace]
  let entries ← names.mapM fun name => do
    return (← IO.getEnv name).map fun text => (name, text)
  return entries.filterMap id

/-- What the command line needs to read for the given input. -/
def readSurroundings (input : CommandLine.Input) : IO CommandLine.Surroundings := do
  let vars ← readVariables
  match input with
  | .standardInput =>
    let stdin ← decoded (readAll (← IO.getStdin) .empty)
    return { stdin, isPath := fun _ => .ok false, readText := fun _ => .ok "", vars }
  | .argument text =>
    let found ← testPath text
    let content ←
      match found with
      | .ok true => decoded (IO.FS.readBinFile text)
      | _ => pure (.ok "")
    return { stdin := .ok "", isPath := fun _ => found, readText := fun _ => content, vars }

/-- The exit status of the process, which has eight bits.  An exit code that is not an integer
counts as an error. -/
def exitStatus : CommandLine.Status → UInt32
  | .finished code => code.toUInt32
  | .exit (.int code) => (code % 256).toNat.toUInt32
  | .exit (.bool code) => (Number.ofTruth code).toNat.toUInt32
  | .exit _ => 1
  | .abort _ | .hostError _ => 1

/-- Runs the command line. -/
def run (args : List String) : IO UInt32 := do
  let input := ((CommandLine.Options.ofArgs args).map (·.input)).toOption.getD (.argument "")
  let outcome := CommandLine.run Builtins.standard args (← readSurroundings input)
  (← IO.getStdout).putStr outcome.stdout
  (← IO.getStderr).putStr outcome.stderr
  match outcome.status with
  | .abort message => (← IO.getStderr).putStrLn message
  | .hostError e => (← IO.getStderr).putStrLn (e.kind ++ ": " ++ e.message)
  | _ => pure ()
  return exitStatus outcome.status

end Juxta.Main

/-- The entry point. -/
def main (args : List String) : IO UInt32 :=
  Juxta.Main.run args
