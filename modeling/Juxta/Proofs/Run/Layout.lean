import Juxta.Proofs.Evaluation.Forgetting
import Juxta.Proofs.Parser.Words
import Juxta.Proofs.Run.Session

/-!
# Layout has no meaning

Blanks between the pieces of a source, and comments at the ends of its lines, change nothing that
can be seen but the places of errors: the tokens say the same, the trees are equal, and a run prints
the same, binds the same and ends in the same way.

The argument goes through the three stages in turn.  The words of the tokens stay as they are, trees
depend on words only, and an evaluation does not depend on places.

## What is here

* `SameEnding`, `SameRun` — runs that differ only in places.
* `runSource_sameRun` — sources that are parsed alike are run alike.
* `layout_irrelevant` — a source with more layout.
-/

set_option autoImplicit false
namespace Juxta

/-! ## Runs that differ only in places -/

/-- Endings that differ only in places: the same value, exit code or defect, the same failure, or a
parse error that expects and finds the same. -/
inductive SameEnding : Ending → Ending → Prop
  | value {v v' : Value} (h : v'.unplaced = v.unplaced) : SameEnding (.value v) (.value v')
  | parseError {e e' : ParseError} (hexpected : e'.expected = e.expected)
      (hfound : e'.found = e.found) :
      SameEnding (.sourceError (.parse e)) (.sourceError (.parse e'))
  | failure {f f' : Failure} (hcause : f'.cause.unplaced = f.cause.unplaced)
      (hmessage : f'.cause.message = f.cause.message) : SameEnding (.failure f) (.failure f')
  | exit {code : Node.Payload} : SameEnding (.exit code) (.exit code)
  | defect {d : Node.Defect} : SameEnding (.defect d) (.defect d)

/-- Runs that differ only in places: they write the same, leave the same bindings and end in the
same way. -/
structure SameRun (r r' : Run) : Prop where
  output : r'.output = r.output
  env : r'.env.unplaced = r.env.unplaced
  ending : SameEnding r.ending r'.ending

/-- What a machine has printed does not show places. -/
theorem Machine.output_unplaced (m : Machine) : m.unplaced.output = m.output :=
  printedText_unplaced m.printed

/-- Outcomes that differ only in places are endings that do. -/
theorem sameEnding_endingOf {r r' : EStateM.Result Interrupt Machine Value}
    (h : Eval.unplacedOutcome Value.unplaced r' = Eval.unplacedOutcome Value.unplaced r) :
    SameEnding (endingOf r).1 (endingOf r').1 ∧
      (endingOf r').2.unplaced = (endingOf r).2.unplaced := by
  cases r with
  | ok v m =>
    cases r' with
    | ok v' m' =>
      obtain ⟨hv, hm⟩ := EStateM.Result.ok.inj h
      exact ⟨.value hv, hm⟩
    | error => cases h
  | error i m =>
    cases r' with
    | ok => cases h
    | error i' m' =>
      obtain ⟨hi, hm⟩ := EStateM.Result.error.inj h
      cases i with
      | failure f =>
        cases i' with
        | failure f' =>
          have hcause : f'.cause.unplaced = f.cause.unplaced :=
            congrArg Failure.cause (Interrupt.failure.inj hi)
          refine ⟨.failure hcause ?_, hm⟩
          rw [← Cause.message_unplaced, hcause, Cause.message_unplaced]
        | exit | defect => cases hi
      | exit code =>
        cases i' with
        | exit code' =>
          cases hi
          exact ⟨.exit, hm⟩
        | failure | defect => cases hi
      | defect d =>
        cases i' with
        | defect d' =>
          cases hi
          exact ⟨.defect, hm⟩
        | failure | exit => cases hi

/-- Trees that differ only in places are evaluated alike, whatever their sources are. -/
theorem evaluateAt_same {n n' : Node} (hn : n'.unplaced = n.unplaced) {env env' : Environment}
    (henv : env'.unplaced = env.unplaced) (frame : Nat) (source source' : String) :
    let r := evaluateAt env frame (some source) n
    let r' := evaluateAt env' frame (some source') n'
    r'.printed = r.printed ∧ r'.env.unplaced = r.env.unplaced ∧ SameEnding r.ending r'.ending := by
  have hm : (Machine.ofEnvironment (env'.setSource frame source')).unplaced =
      (Machine.ofEnvironment (env.setSource frame source)).unplaced := by
    rw [Machine.unplaced, Machine.unplaced, Machine.ofEnvironment, Machine.ofEnvironment,
      Environment.setSource_unplaced, Environment.setSource_unplaced, henv]
  obtain ⟨hending, hmachine⟩ := sameEnding_endingOf (Node.unplacedOutcome_eval hn hm frame)
  have houtput := congrArg Machine.output hmachine
  rw [Machine.output_unplaced, Machine.output_unplaced] at houtput
  exact ⟨houtput, congrArg Machine.env hmachine, hending⟩

/-- **Sources that are parsed alike are run alike.** -/
theorem runSource_sameRun {source source' : String} (options : RunOptions) {env env' : Environment}
    (henv : env'.unplaced = env.unplaced) (frame : Nat)
    (hparse : ∀ settings : Parser.Settings,
      Parser.SameParse (Parser.parseSource settings options.mode source).tree
        (Parser.parseSource settings options.mode source').tree) :
    SameRun (runSource options env frame source) (runSource options env' frame source') := by
  have hparse := hparse { Parser.Settings.standard with tracing := options.tracing }
  rw [runSource, runSource]
  dsimp only
  generalize Parser.parseSource _ options.mode source = parsed,
    Parser.parseSource _ options.mode source' = parsed' at hparse ⊢
  obtain ⟨tree, trace⟩ := parsed
  obtain ⟨tree', trace'⟩ := parsed'
  cases hparse with
  | parseError hexpected hfound => exact ⟨rfl, henv, .parseError hexpected hfound⟩
  | @tree n n' _ hunplaced =>
    obtain ⟨hprinted, henv, hending⟩ := evaluateAt_same hunplaced henv frame source source'
    have houtline : n'.outline 0 = n.outline 0 := by
      rw [← Node.outline_unplaced, hunplaced, Node.outline_unplaced]
    refine ⟨?_, henv, hending⟩
    show (if options.showTree then n'.outline 0 else "") ++ _ =
      (if options.showTree then n.outline 0 else "") ++ _
    rw [houtline, hprinted]

/-! ## Sources with more layout -/

/-- Fresh root frames differ only in their sources. -/
theorem Builtins.unplaced_environment (b : Builtins) (source source' : Option String) :
    (b.environment source').unplaced = (b.environment source).unplaced :=
  rfl

/-- **Layout does not change meaning.**  Blanks between the pieces of a source, or a comment without
quotes at the end of one of its lines, leave what its tokens say as it is; in every mode the source
with them has an equal tree, or a parse error that expects and finds the same; and a run of it, from
the same bindings, such as those of a fresh root frame, writes the same, leaves the same bindings
and ends in the same way.  Only the places of errors may differ. -/
theorem layout_irrelevant {source text : String} {tokens : List Token} {offset : Nat}
    (htokens : Token.tokenize source = .ok tokens) (hfits : Token.Fits source offset text) :
    let source' := Token.insertAt source offset text
    (∃ tokens', Token.tokenize source' = .ok tokens' ∧
      tokens'.map Token.word = tokens.map Token.word) ∧
    (∀ (settings : Parser.Settings) (mode : Parser.Mode),
      Parser.SameParse (Parser.parseSource settings mode source).tree
        (Parser.parseSource settings mode source').tree) ∧
    ∀ (options : RunOptions) (env env' : Environment) (frame : Nat),
      env'.unplaced = env.unplaced →
      SameRun (runSource options env frame source) (runSource options env' frame source') := by
  intro source'
  obtain ⟨tokens', htokens', hwords⟩ := Token.tokenize_insertAt htokens hfits
  have hparse (settings : Parser.Settings) (mode : Parser.Mode) :
      Parser.SameParse (Parser.parseSource settings mode source).tree
        (Parser.parseSource settings mode source').tree :=
    (Parser.parsesTo_parseSource settings mode source).sameParse
      (Parser.parsesTo_parseSource settings mode source') htokens htokens' hwords
  refine ⟨⟨tokens', htokens', hwords⟩, hparse, fun options env env' frame henv => ?_⟩
  exact runSource_sameRun options henv frame fun settings => hparse settings options.mode

/-- Behind a string that only a paired quote closes, blanks at the start of the last line and a
comment at the end of the first: from fresh root frames the runs print the quoted tree and fail, and
only the place of the failure differs. -/
theorem layout_irrelevant_failure :
    let source := "x := :(f \"b\\\")\nprintln x\n1 / 0"
    let indented := "x := :(f \"b\\\")\nprintln x\n\t 1 / 0"
    let remarked := "x := :(f \"b\\\")# no (\nprintln x\n1 / 0"
    let run (source : String) :=
      runSource ⟨.program, false, false⟩ (Builtins.standard.environment (some source)) 0 source
    Token.Fits source 25 "\t " ∧ Token.Fits source 14 "# no (" ∧
      (run source).ending.error? = some "integer division by zero (line 3, col 1)" ∧
      (run indented).ending.error? = some "integer division by zero (line 3, col 3)" ∧
      SameRun (run source) (run indented) ∧ SameRun (run source) (run remarked) := by
  intro source indented remarked run
  have htokens : Token.tokenize source =
      .ok ((Token.scan 0 source.toList).pieces.filter (·.kind.isKept false)) := by decide +kernel
  have hblanks : Token.Fits source 25 "\t " :=
    ⟨by decide +kernel, by decide +kernel, .inl (by decide)⟩
  have hremark : Token.Fits source 14 "# no (" :=
    ⟨by decide +kernel, by decide +kernel, .inr ⟨by decide, by decide +kernel⟩⟩
  have hsame {offset : Nat} {text source' : String} (hfits : Token.Fits source offset text)
      (hsource' : Token.insertAt source offset text = source') :
      SameRun (run source) (run source') := by
    subst hsource'
    exact (layout_irrelevant htokens hfits).2.2 ⟨.program, false, false⟩ _ _ 0
      (Builtins.unplaced_environment _ _ _)
  exact ⟨hblanks, hremark, by decide +kernel, by decide +kernel, hsame hblanks (by decide),
    hsame hremark (by decide)⟩

end Juxta
