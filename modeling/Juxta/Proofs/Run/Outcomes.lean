import Juxta.Proofs.Evaluation.Ordinary
import Juxta.Proofs.Run.Location
import Juxta.Repl.Session

/-!
# How runs, sessions and commands end

Every source comes to an end that the language knows: a value, an error in the source, a failure of
one of eight classes, or an exit with an integer.  Nothing else comes of it, whatever the source;
and so a session goes on until it is left, and a command has one of its own statuses.  Only the host
can come between: what a command reads may be refused, and it does not catch the error.

## What is here

* `Closed` — the endings that the language knows; `runSource_closed` — all runs come to one.
* `Token.IsReadable` — a numeral has a number; the numerals of a source do.
* `Repl.Session.step_closed`, `Repl.Session.answers_closed` — what a session answers.
* `CommandLine.Reports` — how the status of a command tells the ending of its run.
* `CommandLine.Surroundings.Refuses` — the errors of the host; `CommandLine.Ends` — how a command
  ends; `CommandLine.Ends.isOwn_iff` — when its status is one of its own.
* `outcomes_closed` — all of this together; `unreadable_of_long_argument` — a program that the host
  refuses to read.
-/

set_option autoImplicit false
namespace Juxta

/-! ## Endings -/

/-- The ending is one that the language knows.  Errors have a position in the source, and the
language lacks the evaluation of a node only where the tree has such a node outside of
quotations. -/
inductive Closed (mode : Parser.Mode) (source : String) : Ending → Prop
  | value {v : Value} (h : v.isOrdinary = true) : Closed mode source (.value v)
  | lexError {e : LexError} (h : Position.ofOffset? source e.offset = some e.position) :
      Closed mode source (.sourceError (.lex e))
  | parseError {e : ParseError} (h : Parser.IsLocatedIn source e) :
      Closed mode source (.sourceError (.parse e))
  | failure {f : Failure} {node : Node} (hparse : Parser.parse mode source = .ok node)
      (hclass : f.cause.class?.isSome = true)
      (hexposed : ∀ k, f.cause = .notImplemented k →
        k ∈ [.block, .propertyAccess, .unquote] ∧ ∃ n ∈ node.exposed, n.kind = k) :
      Closed mode source (.failure f)
  | exit {n : Int} : Closed mode source (.exit (.int n))

/-- A lexical error has the position of its offset. -/
theorem Token.position_of_tokenize {source : String} {e : LexError}
    (h : tokenize source = .error e) : Position.ofOffset? source e.offset = some e.position := by
  obtain ⟨rest, hscan, hnone⟩ := scansTo_scan 0 source.toList
  generalize (scan 0 source.toList).pieces = pieces at hscan
  rw [tokenize, hscan.tokenizeWith_eq hnone] at h
  split at h
  · cases h
  · cases h
    have hle : (spelled pieces).length ≤ source.length := by
      rw [← String.length_toList, hscan.eq_append, List.length_append]
      omega
    rw [Position.ofOffset?_of_le hle, hscan.eq_append, List.take_left]

/-- The language lacks the evaluation of a node only where the tree has such a node. -/
theorem exists_exposed_of_notImplemented {frame : Nat} {node : Node} {m m' : Machine} {f : Failure}
    {k : Node.Kind} (heval : node.eval frame m = .error (.failure f) m')
    (hcause : f.cause = .notImplemented k) :
    k ∈ [.block, .propertyAccess, .unquote] ∧ ∃ n ∈ node.exposed, n.kind = k := by
  obtain ⟨path, hpath, -⟩ := exists_failsAlong heval
  obtain ⟨raiser, outer, m₁, rfl, hraises⟩ := hpath.exists_raises
  have hkind := hraises.isRaisedBy
  rw [hcause, Cause.isRaisedBy, Bool.and_eq_true, decide_eq_true_eq, List.contains_iff_mem] at hkind
  obtain ⟨rfl, hk⟩ := hkind
  exact ⟨hk, raiser, hpath.mem_exposed raiser List.mem_cons_self, rfl⟩

/-- **Every run comes to an ending that the language knows**, and leaves an ordinary environment. -/
theorem runSource_closed (options : RunOptions) {env : Environment} (henv : env.IsOrdinary)
    (frame : Nat) (source : String) :
    Closed options.mode source (runSource options env frame source).ending ∧
      (runSource options env frame source).env.IsOrdinary := by
  have hstart : (Machine.ofEnvironment (env.setSource frame source)).env.IsOrdinary :=
    henv.setSource frame source
  have hrun := runsTo_runSource options env frame source
  generalize runSource options env frame source = run at hrun
  cases hrun with
  | @sourceError e trace hparse =>
    refine ⟨?_, henv⟩
    cases e with
    | parse e => exact .parseError hparse.isLocatedIn
    | lex e =>
      cases hparse with
      | lexError he => exact .lexError (Token.position_of_tokenize he)
  | value hparse heval =>
    obtain ⟨henv', hv⟩ := (hparse.sourceTree.keeps (ordinary_theory frame)).of_ok hstart heval
    exact ⟨.value hv, henv'⟩
  | @failure node f m trace hparse heval =>
    obtain ⟨henv', hf⟩ := (hparse.sourceTree.keeps (ordinary_theory frame)).of_error hstart heval
    have hnode := hparse.unique (Parser.parsesTo_parseSource .standard options.mode source)
    exact ⟨.failure hnode hf fun k => exists_exposed_of_notImplemented heval, henv'⟩
  | @exit node code m trace hparse heval =>
    obtain ⟨henv', n, rfl⟩ :=
      (hparse.sourceTree.keeps (ordinary_theory frame)).of_error hstart heval
    exact ⟨.exit, henv'⟩
  | defect hparse heval =>
    exact absurd ((hparse.sourceTree.keeps (ordinary_theory frame)).of_error hstart heval).2 id

/-! ## Numerals -/

/-- A numeral, if the token is one, has a number. -/
structure Token.IsReadable (t : Token) : Prop where
  integer : t.kind = .integer → ∃ n, Decimal.readInteger? t.text = some n
  float : t.kind = .float → ∃ x, Decimal.readFloat? t.text = some x

/-- The numerals of a source have numbers. -/
theorem Token.Lexical.isReadable {t : Token} (h : t.Lexical) : t.IsReadable where
  integer hk := Decimal.exists_readInteger? h.text_ne_nil (h.text_of_integer hk)
  float hk := by
    obtain ⟨whole, places, htext, hne, hwhole, hplaces⟩ := h.text_of_float hk
    exact Decimal.exists_readFloat? htext hne hwhole hplaces

/-! ## Sessions -/

namespace Repl

/-- A session in which all values are values of the language. -/
structure Session.IsOrdinary (s : Session) : Prop where
  builtins : s.builtins.IsOrdinary
  env : s.env.IsOrdinary

/-- If the answer to the line is about a run, that ended in a way that the language knows. -/
def Answer.IsClosed (line : Option String) : Answer → Prop
  | evaluated run _ => ∃ text, line = some text ∧ Closed .expressions (normalize text) run.ending
  | _ => True

theorem Answer.IsClosed.exitCode? {line : Option String} {answer : Answer} {code : Node.Payload}
    (h : answer.IsClosed line) (hcode : answer.exitCode? = some code) :
    ∃ n : Int, code = .int n := by
  cases answer with
  | evaluated run traceback =>
    obtain ⟨text, -, hclosed⟩ := h
    obtain ⟨ending, env, outline, printed, trace⟩ := run
    cases hclosed with
    | exit => exact ⟨_, (Option.some.inj hcode).symm⟩
    | _ => cases hcode
  | _ => cases hcode

/-- **A session answers a line in a way that the language knows**, and stays ordinary. -/
theorem Session.step_closed {s : Session} (h : s.IsOrdinary) (line : Option String) :
    (s.step line).1.IsOrdinary ∧ (s.step line).2.IsClosed line := by
  cases line with
  | none => exact ⟨h, trivial⟩
  | some line =>
    rw [step]
    split
    · exact ⟨h, trivial⟩
    · split
      · next command _ =>
        cases command with
        | clear | unknown => exact ⟨h, trivial⟩
        | tree arg | traceback arg =>
          rw [Session.command]
          split
          · exact ⟨h, trivial⟩
          · exact ⟨⟨h.builtins, h.env⟩, trivial⟩
        | reset => exact ⟨⟨h.builtins, h.builtins.environment _⟩, trivial⟩
      · obtain ⟨hclosed, henv⟩ :=
          runSource_closed ⟨.expressions, s.showTree, false⟩ h.env frame (normalize line)
        exact ⟨⟨h.builtins, henv⟩, line, rfl, hclosed⟩

/-- Every answer to a line is one that the language knows; and there is one to every line and a
farewell, unless the exit function, called with an integer, made the last answer. -/
structure Converses (lines : List (Option String)) (answers : List Answer) : Prop where
  closed : ∀ (i : Nat) line answer, lines[i]? = some line → answers[i]? = some answer →
    answer.IsClosed line
  goesOn : answers.length = lines.length + 1 ∨
    ∃ n : Int, answers.getLast?.bind Answer.exitCode? = some (.int n)

/-- One more answer, after which the session goes on. -/
theorem Converses.cons {line : Option String} {lines : List (Option String)} {answer : Answer}
    {answers : List Answer} (hanswer : answer.IsClosed line) (h : Converses lines answers) :
    Converses (line :: lines) (answer :: answers) where
  closed i line' answer' hline hanswer' := by
    cases i with
    | zero =>
      cases hline
      cases hanswer'
      exact hanswer
    | succ i => exact h.closed i line' answer' hline hanswer'
  goesOn := by
    rcases h.goesOn with hlength | ⟨n, hn⟩
    · exact .inl (by rw [List.length_cons, hlength, List.length_cons])
    · refine .inr ⟨n, ?_⟩
      cases hlast : answers.getLast? with
      | none =>
        rw [hlast] at hn
        cases hn
      | some last =>
        rw [List.getLast?_cons, hlast]
        rwa [hlast] at hn

/-- **A session goes on until it is left.** -/
theorem Session.answers_closed {s : Session} (h : s.IsOrdinary) (lines : List (Option String)) :
    Converses lines (s.answers lines) := by
  induction lines generalizing s with
  | nil => exact ⟨fun _ _ _ hline => (by cases hline), .inl rfl⟩
  | cons line rest ih =>
    obtain ⟨hsession, hanswer⟩ := s.step_closed h line
    rw [answers]
    dsimp only
    split
    · next hexit =>
      obtain ⟨code, hcode⟩ := Option.isSome_iff_exists.1 hexit
      obtain ⟨n, rfl⟩ := hanswer.exitCode? hcode
      refine ⟨fun i line' answer' hline hanswer' => ?_, .inr ⟨n, hcode⟩⟩
      cases i with
      | zero =>
        cases hline
        cases hanswer'
        exact hanswer
      | succ i => cases hanswer'
    · exact (ih hsession).cons hanswer

end Repl

/-! ## Commands -/

/-- `CommandLine.Reports ending status`: the status tells how the run of a program ended. -/
inductive CommandLine.Reports : Ending → Status → Prop
  | value {v : Value} : Reports (.value v) (.finished 0)
  | sourceError {e : SourceError} : Reports (.sourceError e) (.finished 1)
  | failure {f : Failure} : Reports (.failure f) (.finished 1)
  | exit {n : Int} : Reports (.exit (.int n)) (.exit (.int n))

/-- The run of a program by a command. -/
def CommandLine.programRun (b : Builtins) (options : Options) (vars : Variables)
    (program : String) : Run :=
  runSource
    ⟨.program, options.showTree, options.traceParse || vars.isOn Variables.parseTrace⟩
    (b.environment (some program)) 0 program

namespace CommandLine

/-- `world.Refuses input e`: the host raises the error instead of reading the input. -/
inductive Surroundings.Refuses (world : Surroundings) : Input → HostError → Prop
  | stdin {e : HostError} (h : world.stdin = .error e) : Refuses world .standardInput e
  | path {text : String} {e : HostError} (h : world.isPath text = .error e) :
      Refuses world (.argument text) e
  | file {text : String} {e : HostError} (hpath : world.isPath text = .ok true)
      (h : world.readText text = .error e) : Refuses world (.argument text) e

/-- Without a program the command aborts, or the host has refused to read one. -/
theorem Input.load_error {world : Surroundings} {input : Input} {status : Status}
    (h : input.load world = .error status) :
    (∃ message, status = .abort message) ∨ ∃ e, status = .hostError e ∧ world.Refuses input e := by
  cases input with
  | standardInput =>
    rw [load] at h
    split at h
    · next hstdin =>
      cases h
      exact .inr ⟨_, rfl, .stdin hstdin⟩
    · split at h
      · cases h
        exact .inl ⟨_, rfl⟩
      · cases h
  | argument text =>
    rw [load] at h
    split at h
    · next hpath =>
      cases h
      exact .inr ⟨_, rfl, .path hpath⟩
    · cases h
    · next hpath =>
      split at h
      · next hfile =>
        cases h
        exact .inr ⟨_, rfl, .file hpath hfile⟩
      · cases h

/-- An error of the host comes through as it is. -/
theorem Surroundings.Refuses.load_eq {world : Surroundings} {input : Input} {e : HostError}
    (h : world.Refuses input e) : input.load world = .error (.hostError e) := by
  cases h with
  | stdin h => simp only [Input.load, h]
  | path h => simp only [Input.load, h]
  | file hpath h => simp only [Input.load, hpath, h]

/-- `Ends b args world status`: the command ends with the status, since its arguments are wrong,
since the host refuses to read the program, since there is none, or since the run of its program
ended in a way that the language knows. -/
inductive Ends (b : Builtins) (args : List String) (world : Surroundings) : Status → Prop
  | arguments {message : String} (h : Options.ofArgs args = .error message) :
      Ends b args world (.abort message)
  | unreadable {options : Options} {e : HostError} (hargs : Options.ofArgs args = .ok options)
      (h : world.Refuses options.input e) : Ends b args world (.hostError e)
  | noProgram {options : Options} {message : String} (hargs : Options.ofArgs args = .ok options)
      (h : options.input.load world = .error (.abort message)) : Ends b args world (.abort message)
  | ran {options : Options} {program : String} {status : Status}
      (hargs : Options.ofArgs args = .ok options) (hload : options.input.load world = .ok program)
      (hclosed : Closed .program program (programRun b options world.vars program).ending)
      (h : Reports (programRun b options world.vars program).ending status) :
      Ends b args world status

theorem run_ends {b : Builtins} (hb : b.IsOrdinary) (args : List String) (world : Surroundings) :
    Ends b args world (run b args world).status := by
  rw [run, load]
  cases hargs : Options.ofArgs args with
  | error message => exact .arguments hargs
  | ok options =>
    cases hload : options.input.load world with
    | error status =>
      simp only [hload, Except.map]
      rcases Input.load_error hload with ⟨message, rfl⟩ | ⟨e, rfl, hrefuses⟩
      · exact .noProgram hargs hload
      · exact .unreadable hargs hrefuses
    | ok program =>
      have hclosed : Closed .program program (programRun b options world.vars program).ending :=
        (runSource_closed ⟨.program, _, _⟩ (hb.environment (some program)) 0 program).1
      simp only [hload, Except.map]
      refine .ran hargs hload hclosed ?_
      rw [execute, ← programRun]
      dsimp only
      generalize (programRun b options world.vars program).ending = ending at hclosed ⊢
      cases hclosed with
      | value => exact .value
      | lexError | parseError => exact .sourceError
      | failure => exact .failure
      | exit => exact .exit

/-- With an error of the host the command ends, too. -/
theorem run_of_refuses {b : Builtins} {args : List String} {world : Surroundings}
    {options : Options} {e : HostError} (hargs : Options.ofArgs args = .ok options)
    (h : world.Refuses options.input e) : (run b args world).status = .hostError e := by
  simp only [run, load, hargs, h.load_eq, Except.map]

/-- The statuses that the command has by itself: zero, one, an exit with an integer, and an abort
with a message. -/
inductive Status.IsOwn : Status → Prop
  | success : IsOwn (.finished 0)
  | error : IsOwn (.finished 1)
  | exit {n : Int} : IsOwn (.exit (.int n))
  | abort {message : String} : IsOwn (.abort message)

theorem Reports.isOwn {ending : Ending} {status : Status} (h : Reports ending status) :
    status.IsOwn := by
  cases h with
  | value => exact .success
  | sourceError | failure => exact .error
  | exit => exact .exit

/-- **A command has a status of its own just where the host lets its program be read.** -/
theorem Ends.isOwn_iff {b : Builtins} {args : List String} {world : Surroundings} {status : Status}
    (h : Ends b args world status) :
    status.IsOwn ↔ ∀ options e, Options.ofArgs args = .ok options →
      ¬ world.Refuses options.input e := by
  cases h with
  | arguments hargs =>
    refine iff_of_true .abort fun options e hoptions => ?_
    rw [hargs] at hoptions
    cases hoptions
  | unreadable hargs hrefuses =>
    exact iff_of_false (fun hown => by cases hown) fun hreadable => hreadable _ _ hargs hrefuses
  | noProgram hargs hload =>
    refine iff_of_true .abort fun options e hoptions hrefuses => ?_
    obtain rfl := Except.ok.inj (hargs.symm.trans hoptions)
    cases hload.symm.trans hrefuses.load_eq
  | ran hargs hload _ hreports =>
    refine iff_of_true hreports.isOwn fun options e hoptions hrefuses => ?_
    obtain rfl := Except.ok.inj (hargs.symm.trans hoptions)
    cases hload.symm.trans hrefuses.load_eq

end CommandLine

/-! ## All of it -/

/-- **No source can do anything but end in a way that the language knows.**  In any environment of
values of the language, the run of a source ends so and leaves such an environment; every numeral
that it has can be read; a session answers every line so, until the exit function ends it with an
integer; and a command reports how its program ended, by a status that says so, just where the host
lets it read that program. -/
theorem outcomes_closed {b : Builtins} (hb : b.IsOrdinary) :
    (∀ (options : RunOptions) (env : Environment) (frame : Nat) (source : String),
      env.IsOrdinary →
        Closed options.mode source (runSource options env frame source).ending ∧
          (runSource options env frame source).env.IsOrdinary) ∧
      (∀ source tokens, Token.tokenize source = .ok tokens → ∀ t ∈ tokens, t.IsReadable) ∧
      (∀ (s : Repl.Session) (line : Option String), s.IsOrdinary →
        (s.step line).1.IsOrdinary ∧ (s.step line).2.IsClosed line) ∧
      (∀ (vars : Variables) (lines : List (Option String)),
        Repl.Converses lines ((Repl.Session.start b vars).answers lines)) ∧
      ∀ (args : List String) (world : CommandLine.Surroundings),
        let status := (CommandLine.run b args world).status
        CommandLine.Ends b args world status ∧
          (status.IsOwn ↔ ∀ options e, CommandLine.Options.ofArgs args = .ok options →
            ¬ world.Refuses options.input e) := by
  refine ⟨fun options _ frame source henv => runSource_closed options henv frame source, ?_,
    fun _ line hs => Repl.Session.step_closed hs line, ?_, fun args world => ?_⟩
  · intro source tokens htokens t ht
    exact (Token.lexical_of_tokenize htokens t ht).isReadable
  · intro vars lines
    have hstart : (Repl.Session.start b vars).IsOrdinary := ⟨hb, hb.environment _⟩
    exact Repl.Session.answers_closed hstart lines
  · have hends := CommandLine.run_ends hb args world
    exact ⟨hends, hends.isOwn_iff⟩

/-- A block outside of a quotation, behind one that is quoted; a session that is left after two
errors; and a command whose program divides by zero, where every name may be looked up. -/
theorem outcomes_closed_standard :
    let source := "q := :\x7bx\x7d\nprintln q \x7bx\x7d"
    let run := runSource ⟨.program, false, false⟩ (Builtins.standard.environment none) 0 source
    let lines := [some "x := 1 +", some "1 / 0", none, some "exit 3", some "x"]
    let answers := (Repl.Session.start .standard []).answers lines
    let world : CommandLine.Surroundings := ⟨.ok "", fun _ => .ok false, fun _ => .ok "", []⟩
    Builtins.standard.IsOrdinary ∧
      run.ending.error? = some "evaluation of Block is not implemented (line 2, col 11)" ∧
      Closed .program source run.ending ∧
      answers.length = 4 ∧ (answers.getLast?.bind (·.exitCode?)).isSome = true ∧
      Repl.Converses lines answers ∧
      (CommandLine.run .standard ["1 / 0"] world).status.IsOwn := by
  intro source run lines answers world
  obtain ⟨hruns, -, -, hsessions, hcommands⟩ := outcomes_closed Builtins.isOrdinary_standard
  have henv := Builtins.isOrdinary_standard.environment none
  refine ⟨Builtins.isOrdinary_standard, by decide +kernel, ?_, by decide +kernel,
    by decide +kernel, hsessions [] lines, ?_⟩
  · exact (hruns ⟨.program, false, false⟩ _ 0 source henv).1
  · refine (hcommands ["1 / 0"] world).2.2 fun options e hargs hrefuses => ?_
    obtain rfl := Except.ok.inj hargs
    cases hrefuses with
    | path h => cases h
    | file h => cases h

/-- **A program can be too long for the command line.**  It stands on the command line itself, as a
text of 401 characters, and a name in the file system has at most 255 bytes.  Looking for a file
with that name raises an error of the host, and with it the command ends.  Read from the standard
input, the same program gives the command a status of its own. -/
theorem unreadable_of_long_argument :
    let program := " + ".intercalate (List.replicate 101 "1")
    let tooLong (name : String) : CommandLine.HostError :=
      ⟨"OSError", "[Errno 36] File name too long: " ++ Text.quoted name⟩
    let world : CommandLine.Surroundings :=
      { stdin := .ok program
        isPath := fun name => if 255 < name.utf8ByteSize then .error (tooLong name) else .ok false
        readText := fun _ => .ok ""
        vars := [] }
    (CommandLine.run .standard [program] world).status = .hostError (tooLong program) ∧
      ¬ (CommandLine.run .standard [program] world).status.IsOwn ∧
      (CommandLine.run .standard [] world).status.IsOwn := by
  intro program tooLong world
  have hargs : CommandLine.Options.ofArgs [program] = .ok ⟨false, false, some program⟩ := by
    decide +kernel
  have hinput : (CommandLine.Options.mk false false (some program)).input = .argument program := by
    decide +kernel
  have hlong : 255 < program.utf8ByteSize := by decide +kernel
  -- from here on only these facts about the text matter
  clear_value program
  have hrefuses : world.Refuses (CommandLine.Options.mk false false (some program)).input
      (tooLong program) := by
    rw [hinput]
    exact .path (if_pos hlong)
  have hrefused := CommandLine.run_of_refuses (b := .standard) hargs hrefuses
  refine ⟨hrefused, ?_, ?_⟩
  · rw [hrefused]
    exact fun hown => by cases hown
  · have hends := CommandLine.run_ends Builtins.isOrdinary_standard [] world
    refine hends.isOwn_iff.2 fun options e hoptions hrefuses => ?_
    obtain rfl := Except.ok.inj hoptions
    cases hrefuses with
    | stdin h => cases h

end Juxta
