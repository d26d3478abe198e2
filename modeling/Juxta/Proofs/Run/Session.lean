import Juxta.Proofs.Evaluation.Logic
import Juxta.Proofs.Evaluation.Relocation
import Juxta.Run

/-!
# Sessions and programs

A program can be entered piece by piece.  A session that runs the pieces one after another, up to
the first that is interrupted, prints what the whole program prints, leaves the bindings that it
leaves, and ends as it ends.  Only where a failure is located does the program count on from the
pieces before.

Every piece must be a program by itself, and its strings must be closed by free quotes: a string
that is not might find another quote in a later piece.

## What is here

* `untilInterrupted` — the runs of a session that is left at the first interrupt.
* `textBefore` — the text of a program before one of its pieces.
* `Pieces` — the statements of pieces, which are those of the joined program (`Pieces.isProgram`).
* `Follows` — the evaluation of a program comes to what a session came to; `Pieces.follows` says so.
* `session_eq_program` — the two ways to run the pieces.
-/

set_option autoImplicit false
namespace Juxta

/-! ## What is printed -/

/-- The text of printed lines, of which the latest comes first. -/
def printedText (lines : List (List Value)) : String :=
  String.join (lines.reverse.map fun line => String.join (line.map Value.text) ++ "\n")

theorem Machine.output_eq (m : Machine) : m.output = printedText m.printed :=
  rfl

theorem printedText_append (lines earlier : List (List Value)) :
    printedText (lines ++ earlier) = printedText earlier ++ printedText lines := by
  rw [printedText, List.reverse_append, List.map_append, String.join_append]
  rfl

/-- What is printed does not show places. -/
theorem printedText_unplaced (lines : List (List Value)) :
    printedText (lines.map (List.map Value.unplaced)) = printedText lines := by
  rw [printedText, printedText, ← List.map_reverse, List.map_map]
  refine congrArg String.join (List.map_congr_left fun line _ => ?_)
  rw [Function.comp_apply, List.map_map]
  exact congrArg (String.join · ++ "\n") (List.map_congr_left fun v _ => v.text_unplaced)

/-- Within the program, a part prints its output after what was printed before. -/
theorem Part.Matches.output_eq {part : Part} {m m' m₀ : Machine} (h : part.Matches m m')
    (hearlier : part.earlier = m₀.printed.map (List.map Value.unplaced)) :
    m'.output = m₀.output ++ m.output := by
  rw [Machine.output_eq, Machine.output_eq, Machine.output_eq, ← printedText_unplaced m'.printed,
    h.printed, hearlier, printedText_append, printedText_unplaced, printedText_unplaced]

/-! ## Running statements -/

/-- How a run ends that was interrupted. -/
def Interrupt.ending : Interrupt → Ending
  | failure f => .failure f
  | exit code => .exit code
  | defect d => .defect d

/-- How a run ended, and what it left. -/
structure Run.Leaves (r : Run) (ending : Ending) (m : Machine) : Prop where
  ending : r.ending = ending
  env : r.env = m.env
  output : r.output = m.output

/-- A run reports the result of evaluating statements, from whose values `f` makes the one that the
run ends with. -/
def Run.Reports (r : Run) (f : List Value → Value) :
    EStateM.Result Interrupt Machine (List Value) → Prop
  | .ok vs m => r.Leaves (.value (f vs)) m
  | .error i m => r.Leaves i.ending m

theorem runSource_reports {mode : Parser.Mode} {tracing : Bool} {source : String} {node : Node}
    {ns : List Node} {f : List Value → Value} {frame : Nat} (env : Environment)
    (hparse : (Parser.parseSource { Parser.Settings.standard with tracing } mode source).tree =
      .ok node)
    (heval : node.eval frame = do return f (← Node.evalAll frame ns)) :
    (runSource ⟨mode, false, tracing⟩ env frame source).Reports f
      (Node.evalAll frame ns (.ofEnvironment (env.setSource frame source))) := by
  rw [runSource]
  simp only [hparse, evaluateAt, Option.map_some, Option.getD_some, heval]
  cases hr : Node.evalAll frame ns (.ofEnvironment (env.setSource frame source)) with
  | ok vs m =>
    rw [Eval.bind_of_ok hr]
    exact ⟨rfl, rfl, String.empty_append⟩
  | error i m =>
    rw [Eval.bind_of_error hr]
    cases i <;> exact ⟨rfl, rfl, String.empty_append⟩

/-- A piece that is run in a session ends with the value of its last statement. -/
theorem runSource_expressions (tracing : Bool) {source : String} {ns : List Node}
    (h : Parser.IsProgram source ns) (env : Environment) (frame : Nat) :
    (runSource ⟨.expressions, false, tracing⟩ env frame source).Reports (·.getLast?.getD .nil)
      (Node.evalAll frame ns (.ofEnvironment (env.setSource frame source))) := by
  refine runSource_reports env (h.parseSource_expressions tracing) ?_
  rw [Node.eval, Eval.locating_none]

/-- A program ends with nil. -/
theorem runSource_program (tracing : Bool) {source : String} {ns : List Node}
    (h : Parser.IsProgram source ns) (env : Environment) (frame : Nat) :
    (runSource ⟨.program, false, tracing⟩ env frame source).Reports (fun _ => .nil)
      (Node.evalAll frame ns (.ofEnvironment (env.setSource frame source))) := by
  refine runSource_reports env (h.parseSource_program tracing) ?_
  rw [Node.eval, Eval.locating_none]

/-! ## Sessions -/

/-- The runs of a session that is left at the first run that does not end with a value. -/
def untilInterrupted : List Run → List Run
  | [] => []
  | r :: rs =>
    match r.ending with
    | .value _ => r :: untilInterrupted rs
    | _ => [r]

/-- The environment that runs leave, if the first of them found `env`. -/
def lastEnvironment (env : Environment) (runs : List Run) : Environment :=
  (runs.getLast?.map Run.env).getD env

/-- The text of joined pieces before the piece with index `i`. -/
def textBefore (pieces : List String) (i : Nat) : String :=
  String.join ((pieces.take i).map (· ++ "\n"))

theorem untilInterrupted_cons_of_value {r : Run} {v : Value} (h : r.ending = .value v)
    (rs : List Run) : untilInterrupted (r :: rs) = r :: untilInterrupted rs := by
  simp only [untilInterrupted, h]

theorem untilInterrupted_cons_of_interrupt {r : Run} {i : Interrupt} (h : r.ending = i.ending)
    (rs : List Run) : untilInterrupted (r :: rs) = [r] := by
  cases i <;> simp only [untilInterrupted, h, Interrupt.ending]

theorem lastEnvironment_cons (env : Environment) (r : Run) (rs : List Run) :
    lastEnvironment env (r :: rs) = lastEnvironment r.env rs := by
  rw [lastEnvironment, lastEnvironment, List.getLast?_cons, Option.map_some, Option.getD_some,
    Option.getD_map]

theorem textBefore_cons (piece : String) (pieces : List String) (i : Nat) :
    textBefore (piece :: pieces) (i + 1) = piece ++ "\n" ++ textBefore pieces i := by
  rw [textBefore, List.take_succ_cons, List.map_cons, String.join_cons]
  rfl

/-- Behind that text stand the other pieces. -/
theorem textBefore_append {pieces : List String} {i : Nat} (h : i < pieces.length) :
    textBefore pieces i ++ "\n".intercalate (pieces.drop i) = "\n".intercalate pieces := by
  induction pieces generalizing i with
  | nil => exact absurd h (Nat.not_lt_zero i)
  | cons piece pieces ih =>
    cases i with
    | zero => exact String.empty_append
    | succ i =>
      have hi : i < pieces.length := Nat.lt_of_succ_lt_succ h
      have hne : pieces ≠ [] := List.ne_nil_of_length_pos (Nat.zero_lt_of_lt hi)
      rw [textBefore_cons, List.drop_succ_cons, String.append_assoc, ih hi,
        String.intercalate_cons_of_ne_nil hne]

/-! ## Pieces of a program -/

/-- These are the statements of the pieces in order, starting where they stand in the program. -/
inductive Pieces : List String → List Node → Prop
  | nil : Pieces [] []
  | cons {piece : String} {pieces : List String} {ns ms : List Node}
      (hpiece : Parser.IsProgram piece ns) (hfree : Token.StringsEndFreely piece)
      (hpieces : Pieces pieces ms) :
      Pieces (piece :: pieces) (ns ++ ms.map (Node.shift (piece.length + 1)))

theorem exists_pieces {pieces : List String}
    (hparse : ∀ piece ∈ pieces, ∃ node, Parser.parse .program piece = .ok node)
    (hfree : ∀ piece ∈ pieces, Token.StringsEndFreely piece) : ∃ ns, Pieces pieces ns := by
  induction pieces with
  | nil => exact ⟨[], .nil⟩
  | cons piece pieces ih =>
    obtain ⟨⟨node, hnode⟩, hparse⟩ := List.forall_mem_cons.1 hparse
    obtain ⟨hpiece, hfree⟩ := List.forall_mem_cons.1 hfree
    obtain ⟨ns, hns⟩ := Parser.IsProgram.of_parse hnode
    obtain ⟨ms, hms⟩ := ih hparse hfree
    exact ⟨_, .cons hns hpiece hms⟩

/-- The joined pieces are a program of all their statements. -/
theorem Pieces.isProgram {pieces : List String} {ns : List Node} (h : Pieces pieces ns) :
    Parser.IsProgram ("\n".intercalate pieces) ns := by
  induction h with
  | nil =>
    rw [String.intercalate_nil]
    exact ⟨[], rfl, .noStatement rfl rfl⟩
  | @cons piece pieces ns ms hpiece hfree hpieces ih =>
    by_cases hne : pieces = []
    · subst hne
      cases hpieces
      rw [String.intercalate_singleton, List.map_nil, List.append_nil]
      exact hpiece
    · rw [String.intercalate_cons_of_ne_nil hne]
      exact hpiece.join hfree ih

/-! ## The program follows the session -/

/-- A machine went from `m` to `m'` as a session went from `env`: it binds what the session left,
and it has printed what the session wrote. -/
structure Accounts (env : Environment) (m : Machine) (session : List Run) (m' : Machine) :
    Prop where
  env : m'.env.unplaced = (lastEnvironment env session).unplaced
  output : m'.output = m.output ++ String.join (session.map Run.output)

/-- The evaluation of the statements of the pieces, behind the text `before`, follows a session that
ran the pieces. -/
inductive Follows (pieces : List String) (before : String) (env : Environment) (m : Machine)
    (session : List Run) : EStateM.Result Interrupt Machine (List Value) → Prop
  | ok {vs : List Value} {m' : Machine} (length : session.length = pieces.length)
      (values : ∀ r ∈ session, ∃ v, r.ending = .value v) (accounts : Accounts env m session m') :
      Follows pieces before env m session (.ok vs m')
  | error {runs : List Run} {r : Run} {i j : Interrupt} {m' : Machine}
      (last : session = runs ++ [r]) (length : runs.length < pieces.length)
      (values : ∀ r ∈ runs, ∃ v, r.ending = .value v) (ending : r.ending = i.ending)
      (moved : i.Moved ((before ++ textBefore pieces runs.length).toList.count '\n') j)
      (accounts : Accounts env m session m') : Follows pieces before env m session (.error j m')

theorem Accounts.nil {env : Environment} {m : Machine} (h : m.env.unplaced = env.unplaced) :
    Accounts env m [] m :=
  ⟨h, String.append_empty.symm⟩

theorem Accounts.cons {env : Environment} {m m₁ m' : Machine} {r : Run} {rs : List Run}
    (h : Accounts r.env m₁ rs m') (hm : m₁.output = m.output ++ r.output) :
    Accounts env m (r :: rs) m' := by
  refine ⟨?_, ?_⟩
  · rw [lastEnvironment_cons]
    exact h.env
  · rw [h.output, hm, List.map_cons, String.join_cons, String.append_assoc]

/-- After a piece that ended with a value, the program follows if it follows from there on. -/
theorem Follows.cons {piece before : String} {pieces : List String} {env : Environment}
    {m m₁ : Machine} {r : Run} {v : Value} {rs : List Run} {x : Eval (List Value)}
    (h : Follows pieces (before ++ piece ++ "\n") r.env m₁ rs (x m₁)) (hr : r.ending = .value v)
    (hm : m₁.output = m.output ++ r.output) (f : List Value → List Value) :
    Follows (piece :: pieces) before env m (r :: rs) ((do return f (← x)) m₁) := by
  cases hx : x m₁ with
  | ok vs m' =>
    rw [hx] at h
    rw [Eval.bind_of_ok hx]
    cases h with
    | ok length values accounts =>
      refine .ok (congrArg (· + 1) length) (List.forall_mem_cons.2 ⟨⟨v, hr⟩, values⟩) ?_
      exact accounts.cons hm
  | error j m' =>
    rw [hx] at h
    rw [Eval.bind_of_error hx]
    cases h with
    | @error runs r' i _ _ last length values ending moved accounts =>
      refine .error (show r :: rs = (r :: runs) ++ [r'] by rw [last]; rfl)
        (Nat.succ_lt_succ length) (List.forall_mem_cons.2 ⟨⟨v, hr⟩, values⟩) ending ?_
        (accounts.cons hm)
      rw [List.length_cons, textBefore_cons, ← String.append_assoc, ← String.append_assoc]
      exact moved

/-- A piece that is interrupted ends the session and the program. -/
theorem Follows.interrupted {piece before : String} {pieces : List String} {env : Environment}
    {m m' : Machine} {r : Run} {i j : Interrupt} (hr : r.ending = i.ending)
    (hmoved : i.Moved (before.toList.count '\n') j) (henv : m'.env.unplaced = r.env.unplaced)
    (hm : m'.output = m.output ++ r.output) :
    Follows (piece :: pieces) before env m [r] (.error j m') := by
  refine .error (show [r] = [] ++ [r] from rfl) (Nat.zero_lt_succ _) (List.forall_mem_nil _) hr ?_
    ((Accounts.nil henv).cons hm)
  rw [List.length_nil, textBefore, List.take_zero, List.map_nil, String.join_nil,
    String.append_empty]
  exact hmoved

theorem exists_behind (piece : String) (pieces : List String) :
    ∃ behind, "\n".intercalate (piece :: pieces) = piece ++ behind ∧
      (pieces ≠ [] → behind = "\n" ++ "\n".intercalate pieces) := by
  by_cases hne : pieces = []
  · subst hne
    refine ⟨"", ?_, fun h => absurd rfl h⟩
    rw [String.intercalate_singleton, String.append_empty]
  · refine ⟨_, ?_, fun _ => rfl⟩
    rw [String.intercalate_cons_of_ne_nil hne, String.append_assoc]

theorem column_after_line (before piece : String) :
    (Position.start.after (before ++ piece ++ "\n").toList).column = 1 := by
  rw [String.toList_append, Position.after_append]
  rfl

/-- **The statements of pieces, evaluated in a row, follow a session** that runs the pieces. -/
theorem Pieces.follows {pieces : List String} {ns : List Node} (h : Pieces pieces ns)
    (tracing : Bool) {frame : Nat} (env : Environment) (m : Machine) (before : String)
    (hbefore : (Position.start.after before.toList).column = 1) (hframe : frame < env.next)
    (henv : m.env.unplaced = env.unplaced)
    (hsource : pieces ≠ [] → m.env.source? frame = some (before ++ "\n".intercalate pieces)) :
    Follows pieces before env m
      (untilInterrupted (runSources ⟨.expressions, false, tracing⟩ env frame pieces))
      (Node.evalAll frame (ns.map (Node.shift before.length)) m) := by
  -- the induction goes over the pieces; what was run so far is in `before`, `env` and `m`
  induction h generalizing env m before with
  | nil => exact .ok rfl (List.forall_mem_nil _) (.nil henv)
  | @cons piece pieces ns ms hpiece hfree hpieces ih =>
    obtain ⟨behind, hjoined, hbehind⟩ := exists_behind piece pieces
    rw [hjoined, ← String.append_assoc] at hsource
    let earlier := m.printed.map (List.map Value.unplaced)
    let part : Part := ⟨frame, before, piece, behind, earlier, hbefore⟩
    have hmatches := part.matches_setSource hframe henv rfl (hsource (List.cons_ne_nil _ _))
    have houtcomes := part.evalAll_outcomes hpiece hmatches
    have hrun := runSource_expressions tracing hpiece env frame
    rw [runSources, List.map_append, Node.map_shift_shift, Node.evalAll_append]
    rcases houtcomes.ok_or_error with
      ⟨vs, vs', m₁, m₁', hleft, hright, -, hmachine⟩ |
      ⟨i, j, m₁, m₁', hleft, hright, hmoved, hmachine⟩
    · rw [hleft] at hrun
      rw [Eval.bind_of_ok hright, untilInterrupted_cons_of_value hrun.ending]
      have hlength : piece.length + 1 + before.length = (before ++ piece ++ "\n").length := by
        rw [String.length_append, String.length_append, Nat.add_right_comm,
          Nat.add_comm piece.length]
        rfl
      rw [hlength]
      refine .cons (ih _ _ _ (column_after_line before piece) ?_ ?_ ?_) hrun.ending ?_ (vs' ++ ·)
      · rw [hrun.env]
        exact m₁.env.lt_next_of_source? frame hmachine.text
      · rw [hrun.env]
        exact hmachine.env
      · intro hne
        rw [String.append_assoc, ← hbehind hne]
        exact hmachine.whole
      · rw [hrun.output]
        exact hmachine.output_eq rfl
    · rw [hleft] at hrun
      rw [Eval.bind_of_error hright, untilInterrupted_cons_of_interrupt hrun.ending]
      refine .interrupted hrun.ending hmoved ?_ ?_
      · rw [hrun.env]
        exact hmachine.env
      · rw [hrun.output]
        exact hmachine.output_eq rfl

/-! ## The two ways to run pieces -/

/-- The run of a program reproduces a session that ran its pieces from `env` on. -/
structure Reproduces (pieces : List String) (env : Environment) (session : List Run)
    (program : Run) : Prop where
  /-- The program writes what the session wrote. -/
  output : program.output = String.join (session.map Run.output)
  /-- It leaves the bindings that the session left, places aside. -/
  bindings : program.env.unplaced = (lastEnvironment env session).unplaced
  /-- A piece yields a value, fails, or exits. -/
  endings : ∀ r ∈ session, (∃ v, r.ending = .value v) ∨ (∃ f, r.ending = .failure f) ∨
    ∃ code, r.ending = .exit code
  /-- If no piece is interrupted, all of them were run, and the program yields nil. -/
  value : (∀ r ∈ session, ∃ v, r.ending = .value v) →
    session.length = pieces.length ∧ program.ending = .value .nil
  /-- If a piece fails, the program fails for the same cause and in the same column, further down by
  as many lines as there are line feeds before the piece. -/
  failure : ∀ i r f, session[i]? = some r → r.ending = .failure f →
    textBefore pieces i ++ "\n".intercalate (pieces.drop i) = "\n".intercalate pieces ∧
    ∃ f' line column, program.ending = .failure f' ∧ f'.cause.unplaced = f.cause.unplaced ∧
      f'.cause.message = f.cause.message ∧ f.place = ⟨some line, some column⟩ ∧
      f'.place = ⟨some (line + (textBefore pieces i).toList.count '\n'), some column⟩
  /-- If a piece exits, the program exits with the same code. -/
  exit : ∀ r ∈ session, ∀ code, r.ending = .exit code → program.ending = .exit code

/-- Only the last run of a session can be interrupted. -/
theorem eq_last_of_interrupted {runs : List Run} {r r' : Run} {i : Nat}
    (hruns : ∀ r ∈ runs, ∃ v, r.ending = .value v) (h : (runs ++ [r])[i]? = some r')
    (hr' : ∀ v, r'.ending ≠ .value v) : i = runs.length ∧ r' = r := by
  rcases Nat.lt_trichotomy i runs.length with hlt | rfl | hgt
  · rw [List.getElem?_append_left hlt] at h
    obtain ⟨v, hv⟩ := hruns r' (List.mem_of_getElem? h)
    exact absurd hv (hr' v)
  · rw [List.getElem?_concat_length] at h
    exact ⟨rfl, (Option.some.inj h).symm⟩
  · rw [List.getElem?_eq_none (by rw [List.length_append]; exact hgt)] at h
    cases h

section

variable {pieces : List String} {env env' : Environment} {m : Machine} {program : Run}

/-- A program whose pieces were all run with values reproduces the session. -/
theorem reproduces_of_values {session : List Run} (hlength : session.length = pieces.length)
    (hvalues : ∀ r ∈ session, ∃ v, r.ending = .value v)
    (haccounts : Accounts env (.ofEnvironment env') session m)
    (hprogram : program.Leaves (.value .nil) m) : Reproduces pieces env session program where
  output := hprogram.output.trans (haccounts.output.trans String.empty_append)
  bindings := hprogram.env ▸ haccounts.env
  endings := fun r hr => .inl (hvalues r hr)
  value := fun _ => ⟨hlength, hprogram.ending⟩
  failure := fun i r f hr hf => by
    obtain ⟨v, hv⟩ := hvalues r (List.mem_of_getElem? hr)
    cases hv.symm.trans hf
  exit := fun r hr code hcode => by
    obtain ⟨v, hv⟩ := hvalues r hr
    cases hv.symm.trans hcode

/-- A program that was interrupted where a piece was reproduces the session. -/
theorem reproduces_of_interrupt {runs : List Run} {r : Run} {i j : Interrupt}
    (hlength : runs.length < pieces.length)
    (hvalues : ∀ r ∈ runs, ∃ v, r.ending = .value v) (hr : r.ending = i.ending)
    (hmoved : i.Moved ((textBefore pieces runs.length).toList.count '\n') j)
    (haccounts : Accounts env (.ofEnvironment env') (runs ++ [r]) m)
    (hprogram : program.Leaves j.ending m) : Reproduces pieces env (runs ++ [r]) program where
  output := hprogram.output.trans (haccounts.output.trans String.empty_append)
  bindings := hprogram.env ▸ haccounts.env
  endings := by
    intro r' hr'
    rcases List.mem_append.1 hr' with hr' | hr'
    · exact .inl (hvalues r' hr')
    · rw [List.mem_singleton.1 hr', hr]
      cases hmoved with
      | failure => exact .inr (.inl ⟨_, rfl⟩)
      | exit => exact .inr (.inr ⟨_, rfl⟩)
  value := by
    intro hall
    obtain ⟨v, hv⟩ := hall r (List.mem_append_right _ List.mem_cons_self)
    cases i <;> cases hr.symm.trans hv
  failure := by
    intro k r' f hr' hf
    obtain ⟨rfl, rfl⟩ := eq_last_of_interrupted hvalues hr' (by rw [hf]; exact fun v => nofun)
    rw [hr] at hf
    cases hmoved with
    | exit => cases hf
    | failure hcause =>
      obtain rfl := Ending.failure.inj hf
      refine ⟨textBefore_append hlength, _, _, _, hprogram.ending, hcause, ?_, rfl, rfl⟩
      rw [← Cause.message_unplaced, hcause, Cause.message_unplaced]
  exit := by
    intro r' hr' code hcode
    obtain ⟨k, hk⟩ := List.mem_iff_getElem?.1 hr'
    obtain ⟨-, rfl⟩ := eq_last_of_interrupted hvalues hk (by rw [hcode]; exact fun v => nofun)
    rw [hr] at hcode
    cases hmoved with
    | failure => cases hcode
    | exit =>
      obtain rfl := Ending.exit.inj hcode
      exact hprogram.ending

/-- An evaluation that follows a session makes a run that reproduces it. -/
theorem Follows.reproduces {session : List Run}
    {result : EStateM.Result Interrupt Machine (List Value)}
    (h : Follows pieces "" env (.ofEnvironment env') session result)
    (hprogram : program.Reports (fun _ => .nil) result) :
    Reproduces pieces env session program := by
  cases h with
  | ok length values accounts => exact reproduces_of_values length values accounts hprogram
  | error last length values ending moved accounts =>
    rw [String.empty_append] at moved
    subst last
    exact reproduces_of_interrupt length values ending moved accounts hprogram

end

/-- **A session equals a program.**  Pieces that are programs by themselves, with strings that are
closed by free quotes, can be run one after another in a session, until one is interrupted, or
joined by line feeds as one program: the program reproduces the session. -/
theorem session_eq_program (b : Builtins) (source source' : Option String) (tracing tracing' : Bool)
    {pieces : List String}
    (hparse : ∀ piece ∈ pieces, ∃ node, Parser.parse .program piece = .ok node)
    (hfree : ∀ piece ∈ pieces, Token.StringsEndFreely piece) :
    Reproduces pieces (b.environment source)
      (untilInterrupted
        (runSources ⟨.expressions, false, tracing⟩ (b.environment source) 0 pieces))
      (runSource ⟨.program, false, tracing'⟩ (b.environment source') 0
        ("\n".intercalate pieces)) := by
  obtain ⟨ns, hpieces⟩ := exists_pieces hparse hfree
  have hprogram := runSource_program tracing' hpieces.isProgram (b.environment source') 0
  let env' := (b.environment source').setSource 0 ("\n".intercalate pieces)
  have henv : env'.unplaced = (b.environment source).unplaced :=
    (b.environment source').setSource_unplaced 0 _
  have hsource : env'.source? 0 = some ("" ++ "\n".intercalate pieces) := by
    rw [String.empty_append]
    exact Environment.source?_setSource _ 0 _ Nat.zero_lt_one
  have hfollows := hpieces.follows tracing (b.environment source) (.ofEnvironment env') "" rfl
    Nat.zero_lt_one henv fun _ => hsource
  have hshift : ns.map (Node.shift 0) = ns :=
    (List.map_congr_left fun n _ => n.shift_zero).trans (List.map_id' ns)
  rw [String.length_empty, hshift] at hfollows
  exact hfollows.reproduces hprogram

/-- Pieces with a comment, a line end, a paired quote and a quoted tree; the third one fails. -/
theorem session_eq_program_interrupted :
    let pieces := ["x := 1 # one", "println \"a\\\"b\" x\n",
      "q := :(f x); println q\n  y + 1; z := 2", "println 5"]
    let env := Builtins.standard.environment (some "")
    let session := untilInterrupted (runSources ⟨.expressions, false, false⟩ env 0 pieces)
    let program := runSource ⟨.program, false, false⟩ (Builtins.standard.environment none) 0
      ("\n".intercalate pieces)
    (∀ piece ∈ pieces, ∃ node, Parser.parse .program piece = .ok node) ∧
      (∀ piece ∈ pieces, Token.StringsEndFreely piece) ∧
      session.map (·.ending.error?) = [none, none, some "unbound variable \"y\" (line 2, col 3)"] ∧
      program.ending.error? = some "unbound variable \"y\" (line 5, col 3)" ∧
      Reproduces pieces env session program := by
  intro pieces env session program
  have hok : ∀ piece ∈ pieces, (Parser.parse .program piece).isOk = true := by decide +kernel
  have hfree : ∀ piece ∈ pieces, Token.StringsEndFreely piece := by decide +kernel
  have hparse : ∀ piece ∈ pieces, ∃ node, Parser.parse .program piece = .ok node :=
    fun piece hpiece => Parser.exists_ok_of_isOk (hok piece hpiece)
  refine ⟨hparse, hfree, by decide +kernel, by decide +kernel, ?_⟩
  exact session_eq_program Builtins.standard (some "") none false false hparse hfree

end Juxta
