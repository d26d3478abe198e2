import Juxta.Proofs.Parser.Tracing
import Juxta.Run

/-!
# Diagnostics

Two things can be asked for on top of a run: the trace of the parse, and the outline of the tree.
Neither has any influence on what else the run does.

## What is here

* `Parser.Mode.entry` — the rule that a mode starts with.
* `Parser.parseSource_true` — the tree of a source does not depend on the trace.
* `runSource_showTree_of_ok`, `runSource_showTree_of_error` — the outline comes before all else that
  is written, and there is none if there is no tree.
* `diagnostics_are_transparent` — what diagnostics add to a parse and to a run.
-/

set_option autoImplicit false
namespace Juxta

/-! ## Traces -/

namespace Parser

/-- The rule that a mode starts with. -/
def Mode.entry : Mode → Rule
  | program => .program
  | expression => .expression
  | expressions => .expressions

theorem Mode.rule_eq_parser (mode : Mode) (settings : Settings) (first : Node) :
    mode.rule settings = mode.entry.parser settings first := by
  cases mode <;> rfl

/-- A traced rule does what the same rule does without a trace. -/
theorem Rule.parser_steps (rule : Rule) (forms : List ValueForm) (first : Node) (s : State) :
    let traced := rule.parser ⟨true, forms⟩ first s
    let plain := rule.parser ⟨false, forms⟩ first s
    outcome traced = outcome plain ∧ Steps s s (stateAfter traced) (stateAfter plain) := by
  obtain ⟨p, q, hrecords, hp, hq⟩ := rule.parser_records forms first s
  rw [hp, hq]
  exact (hrecords.traces s s ⟨rfl, rfl⟩).steps

/-- The tree of a source does not depend on the trace, and without one there is none. -/
theorem parseSource_true (forms : List ValueForm) (mode : Mode) (source : String) :
    (parseSource ⟨true, forms⟩ mode source).tree = (parseSource ⟨false, forms⟩ mode source).tree ∧
      (parseSource ⟨false, forms⟩ mode source).trace = [] := by
  rw [parseSource, parseSource]
  cases Token.tokenize source with
  | error e => exact ⟨rfl, rfl⟩
  | ok tokens =>
    have hparser := fun settings => mode.rule_eq_parser settings (.branch .program [] none)
    obtain ⟨houtcome, hsteps⟩ := mode.entry.parser_steps forms (.branch .program [] none)
      (.ofTokens tokens)
    have htrace := hsteps.plain.2
    dsimp only [parseTokens]
    rw [hparser, hparser]
    generalize mode.entry.parser ⟨true, forms⟩ _ _ = r,
      mode.entry.parser ⟨false, forms⟩ _ _ = r' at houtcome htrace
    cases r <;> cases r' <;> simp_all [outcome, stateAfter, State.ofTokens]

end Parser

/-! ## Runs -/

variable {mode : Parser.Mode} {source : String} {node : Node} {e : SourceError}

/-- The tree of a run is that of its source. -/
theorem parseSource_standard (tracing : Bool) (mode : Parser.Mode) (source : String) :
    (Parser.parseSource { Parser.Settings.standard with tracing } mode source).tree =
      Parser.parse mode source := by
  cases tracing with
  | false => rfl
  | true => exact (Parser.parseSource_true _ mode source).1

/-- The outline comes before all else that is written. -/
theorem runSource_showTree_of_ok (h : Parser.parse mode source = .ok node) (tracing : Bool)
    (env : Environment) (frame : Nat) :
    runSource ⟨mode, true, tracing⟩ env frame source =
      { runSource ⟨mode, false, tracing⟩ env frame source with outline := node.outline 0 } := by
  have htree := (parseSource_standard tracing mode source).trans h
  simp [runSource, htree]

/-- Without a tree there is no outline. -/
theorem runSource_showTree_of_error (h : Parser.parse mode source = .error e) (tracing : Bool)
    (env : Environment) (frame : Nat) :
    runSource ⟨mode, true, tracing⟩ env frame source =
      runSource ⟨mode, false, tracing⟩ env frame source := by
  have htree := (parseSource_standard tracing mode source).trans h
  simp [runSource, htree]

/-- The trace is all that tracing adds to a run. -/
theorem runSource_tracing (mode : Parser.Mode) (showTree : Bool) (env : Environment) (frame : Nat)
    (source : String) :
    { runSource ⟨mode, showTree, true⟩ env frame source with trace := [] } =
      runSource ⟨mode, showTree, false⟩ env frame source := by
  have htrace := (Parser.parseSource_true Parser.Settings.standard.forms mode source).2
  rw [runSource, runSource]
  dsimp only
  rw [parseSource_standard, parseSource_standard]
  cases Parser.parse mode source with
  | error e => exact congrArg _ htrace.symm
  | ok node => exact congrArg _ htrace.symm

/-! ## The main result -/

/-- **Diagnostics are transparent.**  A parse that is traced, by any rule and from any state, makes
the same tree or the same error with the cursor at the same place.  It comes back to the depth at
which it started, be it by an error, and what it records is a block in which every rule that is
entered is left once, at the same depth, with all in between deeper; and the line of a record is
indented by its depth.  To show the outline of a run only puts it before all else that is written,
and does nothing if there is no tree; to trace a run only adds the trace. -/
theorem diagnostics_are_transparent :
    (∀ (forms : List Parser.ValueForm) (rule : Parser.Rule) (first : Node) (s : Parser.State),
      let traced := rule.parser ⟨true, forms⟩ first s
      let plain := rule.parser ⟨false, forms⟩ first s
      Parser.outcome traced = Parser.outcome plain ∧
        (Parser.stateAfter traced).cursor = (Parser.stateAfter plain).cursor ∧
        (Parser.stateAfter traced).depth = s.depth ∧
        (Parser.stateAfter plain).trace = s.trace ∧
        ∃ inner, let block := .enter s.depth rule (Parser.describe s.current) ::
            (inner ++ [.exit s.depth rule])
          (Parser.stateAfter traced).trace.reverse = s.trace.reverse ++ block ∧
            Parser.Balanced s.depth block ∧ Parser.WellNested block) ∧
    (∀ (mode : Parser.Mode) settings first, mode.rule settings = mode.entry.parser settings first) ∧
    (∀ e : Parser.Event, (e.text.toList.takeWhile (· = ' ')).length = 2 * e.depth) ∧
    ∀ (mode : Parser.Mode) (showTree tracing : Bool) (env : Environment) (frame : Nat)
      (source : String),
      (match Parser.parse mode source with
        | .ok node =>
          runSource ⟨mode, true, tracing⟩ env frame source =
              { runSource ⟨mode, false, tracing⟩ env frame source with outline := node.outline 0 } ∧
            (runSource ⟨mode, true, tracing⟩ env frame source).output =
              node.outline 0 ++ (runSource ⟨mode, false, tracing⟩ env frame source).output
        | .error _ =>
          runSource ⟨mode, true, tracing⟩ env frame source =
            runSource ⟨mode, false, tracing⟩ env frame source) ∧
      { runSource ⟨mode, showTree, true⟩ env frame source with trace := [] } =
        runSource ⟨mode, showTree, false⟩ env frame source := by
  refine ⟨fun forms rule first s => ?_, Parser.Mode.rule_eq_parser, Parser.Event.indentation_text,
    fun mode showTree tracing env frame source =>
      ⟨?_, runSource_tracing mode showTree env frame source⟩⟩
  · obtain ⟨houtcome, hsteps⟩ := rule.parser_steps forms first s
    obtain ⟨p, q, hrecords, hp, -⟩ := rule.parser_records forms first s
    obtain ⟨inner, hinner, htrace⟩ := hrecords.exists_block s
    have hblock : Parser.Balanced s.depth (.enter s.depth rule (Parser.describe s.current) ::
        (inner ++ [.exit s.depth rule])) := .block hinner .nil
    rw [← hp] at htrace
    exact ⟨houtcome, congrArg List.length hsteps.beside.seen, hsteps.depth, hsteps.plain.2, inner,
      htrace, hblock, hblock.wellNested⟩
  · cases hparse : Parser.parse mode source with
    | error e => exact runSource_showTree_of_error hparse tracing env frame
    | ok node =>
      have hrun := runSource_showTree_of_ok hparse tracing env frame
      have htree := (parseSource_standard tracing mode source).trans hparse
      refine ⟨hrun, ?_⟩
      rw [hrun]
      simp [Run.output, runSource, htree]

end Juxta
