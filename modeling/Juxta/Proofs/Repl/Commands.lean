import Juxta.Proofs.Run.Location
import Juxta.Repl.Session

/-!
# Commands do not interfere with the program

The commands of a session change how it shows what it does, and one of them starts the environment
anew.  No other command, and no blank line, makes a difference to what the lines of the program come
to: they could as well be left out.

Two sessions are *alike* if they agree on the environment, whatever they show.  A line that matters
keeps alike sessions alike and is answered alike, and a line that does not matter leaves a session
alike to what it was.

## What is here

* `matters` — whether a line is more than a blank or a command about what is shown.
* `Answer.plain`, `Answer.observation?` — an answer without outlines and tracebacks, and what it
  tells about the program.
* `Course` — the lines of a session with their answers, and the environment that it leaves;
  `Course.Same` — two courses in which the program does the same.
* `Session.Alike.same` — alike sessions take the same course over the lines that matter.
* `commands_do_not_interfere` — what follows for a session that starts afresh.
-/

set_option autoImplicit false
namespace Juxta.Repl

variable {s s' : Session} {lines lines' : List (Option String)} {line : Option String}

/-! ## What a session tells about the program -/

/-- Whether a line matters to the program: it is not blank, and if it is a command, it resets the
environment. -/
def matters : Option String → Bool
  | none => true
  | some line =>
    let text := normalize line
    !(Text.strip text).isEmpty &&
      match Command.ofLine? text with
      | none => true
      | some command => command = .reset

/-- Whether a line is the command that resets the environment. -/
def isReset : Option String → Bool
  | none => false
  | some line => Command.ofLine? (normalize line) = some .reset

/-- A run without its outline. -/
def withoutOutline (run : Run) : Run :=
  { run with outline := "" }

/-- An answer without outline and traceback. -/
def Answer.plain : Answer → Answer
  | evaluated run _ => evaluated (withoutOutline run) false
  | answer => answer

/-- What can be observed of the run of a line: the result that is echoed, the error that is
reported, what was printed, and the code with which the session was left. -/
structure Observation where
  echoed : List Display
  error : Option String
  printed : String
  exit : Option Node.Payload

/-- What an answer tells about the program. -/
def Answer.observation? : Answer → Option Observation
  | evaluated run traceback =>
    some
      { echoed := (evaluated run traceback).output.display
        error := run.ending.error?
        printed := run.printed
        exit := (evaluated run traceback).exitCode? }
  | _ => none

/-- The session that is left after the given lines, or after the one that ends it. -/
def Session.after (s : Session) : List (Option String) → Session
  | [] => s
  | line :: rest =>
    let (session, answer) := s.step line
    if answer.exitCode?.isSome then session else session.after rest

/-- The course of a session: its lines, its answers, and the environment that it leaves. -/
structure Course where
  lines : List (Option String)
  answers : List Answer
  env : Environment

/-- The course of a session over the given lines. -/
def Session.course (s : Session) (lines : List (Option String)) : Course :=
  ⟨lines, s.answers lines, (s.after lines).env⟩

namespace Course

/-- The course from the line with the given number on. -/
def drop (c : Course) (i : Nat) : Course :=
  ⟨c.lines.drop i, c.answers.drop i, c.env⟩

/-- The lines that matter with their answers, up to the end of the session. -/
def log (c : Course) : List (Option String × Answer) :=
  (c.lines.zip c.answers).filter (matters ·.1)

/-- What can be observed of the program. -/
def observations (c : Course) : List Observation :=
  c.answers.filterMap Answer.observation?

/-- The program does the same in both courses. -/
structure Same (c c' : Course) : Prop where
  /-- The same lines that matter are answered, and but for outlines and tracebacks alike. -/
  log : c.log.map (Prod.map id Answer.plain) = c'.log.map (Prod.map id Answer.plain)
  observations : c.observations = c'.observations
  env : c.env = c'.env

end Course

/-! ## One line -/

/-- The outline is all that showing it adds to a run. -/
theorem runSource_showTree (mode : Parser.Mode) (showTree showTree' : Bool) (env : Environment)
    (frame : Nat) (source : String) :
    withoutOutline (runSource ⟨mode, showTree, false⟩ env frame source) =
      withoutOutline (runSource ⟨mode, showTree', false⟩ env frame source) := by
  rw [runSource, runSource]
  dsimp only
  cases (Parser.parseSource { Parser.Settings.standard with tracing := false } mode
      source).tree with
  | error e => rfl
  | ok node => rfl

/-- A source that has no tree leaves the environment as it is, and nothing is written. -/
theorem runSource_of_sourceError {options : RunOptions} {env : Environment} {frame : Nat}
    {source : String} {e : SourceError}
    (h : (runSource options env frame source).ending = .sourceError e) :
    (runSource options env frame source).env = env ∧
      (runSource options env frame source).output = "" := by
  have hrun := runsTo_runSource options env frame source
  generalize runSource options env frame source = run at h hrun
  cases hrun with
  | sourceError => exact ⟨rfl, rfl⟩
  | value | failure | exit | defect => cases h

namespace Session

/-- The sessions agree on the environment, and on how it starts. -/
structure Alike (s s' : Session) : Prop where
  builtins : s.builtins = s'.builtins
  env : s.env = s'.env

theorem Alike.refl (s : Session) : Alike s s := ⟨rfl, rfl⟩

theorem Alike.trans {s₁ s₂ s₃ : Session} (h : Alike s₁ s₂) (h' : Alike s₂ s₃) : Alike s₁ s₃ :=
  ⟨h.builtins.trans h'.builtins, h.env.trans h'.env⟩

/-- What is shown does not change what is done. -/
theorem Alike.evaluate (h : Alike s s') (source : String) :
    Alike (s.evaluate source).1 (s'.evaluate source).1 ∧
      (s.evaluate source).2.plain = (s'.evaluate source).2.plain := by
  have hrun := runSource_showTree .expressions s.showTree s'.showTree s.env frame source
  have henv := congrArg Run.env hrun
  rw [Session.evaluate, Session.evaluate, ← h.env]
  refine ⟨⟨h.builtins, henv⟩, ?_⟩
  exact congrArg (Answer.evaluated · false) hrun

/-- Three things can come of a line that matters, whatever the session. -/
theorem step_cases (hline : matters line = true) :
    (∀ s : Session, s.step line = (s, .interruption)) ∨
      (∀ s : Session, s.step line = s.command .reset) ∨
      ∃ source, ∀ s : Session, s.step line = s.evaluate source := by
  cases line with
  | none => exact .inl fun _ => rfl
  | some line =>
    rw [matters, Bool.and_eq_true, Bool.not_eq_true'] at hline
    obtain ⟨hblank, hcommand⟩ := hline
    cases hread : Command.ofLine? (normalize line) with
    | none =>
      refine .inr (.inr ⟨normalize line, fun s => ?_⟩)
      rw [Session.step, hblank, hread]
      rfl
    | some command =>
      rw [hread] at hcommand
      obtain rfl : command = .reset := of_decide_eq_true hcommand
      refine .inr (.inl fun s => ?_)
      rw [Session.step, hblank, hread]
      rfl

/-- A line that matters keeps sessions alike and is answered alike. -/
theorem Alike.step (h : Alike s s') (hline : matters line = true) :
    Alike (s.step line).1 (s'.step line).1 ∧
      (s.step line).2.plain = (s'.step line).2.plain := by
  rcases step_cases hline with hstep | hstep | ⟨source, hstep⟩
  · rw [hstep, hstep]
    exact ⟨h, rfl⟩
  · rw [hstep, hstep]
    exact ⟨⟨h.builtins, congrArg freshEnvironment h.builtins⟩, rfl⟩
  · rw [hstep, hstep]
    exact h.evaluate source

/-- A line that does not matter leaves a session alike to what it was, and its answer tells nothing
about the program. -/
theorem alike_step (s : Session) (hline : matters line = false) :
    Alike (s.step line).1 s ∧ (s.step line).2.observation? = none ∧
      (s.step line).2.exitCode? = none := by
  cases line with
  | none => cases hline
  | some line =>
    rw [matters] at hline
    rw [Session.step]
    cases hblank : (Text.strip (normalize line)).isEmpty with
    | true => exact ⟨.refl s, rfl, rfl⟩
    | false =>
      rw [hblank] at hline
      cases hcommand : Command.ofLine? (normalize line) with
      | none =>
        rw [hcommand] at hline
        cases hline
      | some command =>
        rw [hcommand] at hline
        cases command with
        | clear | unknown => exact ⟨.refl s, rfl, rfl⟩
        | tree arg =>
          cases htoggle : toggle arg s.showTree <;> simp only [Session.command, htoggle] <;>
            exact ⟨⟨rfl, rfl⟩, rfl, rfl⟩
        | traceback arg =>
          cases htoggle : toggle arg s.traceback <;> simp only [Session.command, htoggle] <;>
            exact ⟨⟨rfl, rfl⟩, rfl, rfl⟩
        | reset => cases hline

/-! ## All lines -/

/-- A line that ends the session has the last answer. -/
theorem course_cons_of_exit (hexit : (s.step line).2.exitCode?.isSome = true) :
    s.course (line :: lines) = ⟨line :: lines, [(s.step line).2], (s.step line).1.env⟩ := by
  rw [course, answers, after]
  dsimp only
  rw [if_pos hexit, if_pos hexit]

theorem course_cons (hgoes : (s.step line).2.exitCode? = none) :
    s.course (line :: lines) =
      { lines := line :: lines
        answers := (s.step line).2 :: ((s.step line).1.course lines).answers
        env := ((s.step line).1.course lines).env } := by
  rw [course, answers, after]
  dsimp only
  rw [hgoes]
  rfl

end Session

namespace Course

variable {answer : Answer} {answers : List Answer} {env : Environment}

theorem log_cons_of_matters (hline : matters line = true) :
    log ⟨line :: lines, answer :: answers, env⟩ = (line, answer) :: log ⟨lines, answers, env⟩ :=
  List.filter_cons_of_pos hline

theorem log_cons_of_not_matters (hline : matters line = false) :
    log ⟨line :: lines, answer :: answers, env⟩ = log ⟨lines, answers, env⟩ :=
  List.filter_cons_of_neg (by simp [hline])

end Course

theorem Answer.exitCode?_plain (answer : Answer) : answer.plain.exitCode? = answer.exitCode? := by
  cases answer <;> rfl

theorem Answer.observation?_plain (answer : Answer) :
    answer.plain.observation? = answer.observation? := by
  cases answer <;> rfl

namespace Session

/-- The log of alike sessions is the same, and so are the environments that they leave, whether or
not the lines that do not matter are left out. -/
theorem Alike.log_filter (h : Alike s s') (lines : List (Option String)) :
    (s.course lines).log.map (Prod.map id Answer.plain) =
        (s'.course (lines.filter matters)).log.map (Prod.map id Answer.plain) ∧
      (s.course lines).env = (s'.course (lines.filter matters)).env := by
  induction lines generalizing s s' with
  | nil => exact ⟨rfl, h.env⟩
  | cons line rest ih =>
    cases hline : matters line with
    | false =>
      obtain ⟨hstep, -, hgoes⟩ := s.alike_step hline
      rw [course_cons hgoes, List.filter_cons_of_neg (by simp [hline]),
        Course.log_cons_of_not_matters hline]
      exact ih (hstep.trans h)
    | true =>
      obtain ⟨hstep, hplain⟩ := h.step hline
      have hexit : (s.step line).2.exitCode? = (s'.step line).2.exitCode? := by
        rw [← Answer.exitCode?_plain, hplain, Answer.exitCode?_plain]
      have hfirst : Prod.map id Answer.plain (line, (s.step line).2) =
          Prod.map id Answer.plain (line, (s'.step line).2) := congrArg (Prod.mk line) hplain
      rw [List.filter_cons_of_pos hline]
      cases hcode : (s.step line).2.exitCode? with
      | some code =>
        rw [course_cons_of_exit (by rw [hcode]; rfl),
          course_cons_of_exit (by rw [← hexit, hcode]; rfl), Course.log_cons_of_matters hline,
          Course.log_cons_of_matters hline, List.map_cons, List.map_cons, hfirst, Course.log,
          Course.log, List.zip_nil_right, List.zip_nil_right]
        exact ⟨rfl, hstep.env⟩
      | none =>
        obtain ⟨hlog, henv⟩ := ih hstep
        rw [course_cons hcode, course_cons (hexit ▸ hcode), Course.log_cons_of_matters hline,
          Course.log_cons_of_matters hline, List.map_cons, List.map_cons, hfirst]
        exact ⟨congrArg _ hlog, henv⟩

/-- What is observed of a session is in its log. -/
theorem observations_course (s : Session) (lines : List (Option String)) :
    (s.course lines).observations =
      ((s.course lines).log.map (Prod.map id Answer.plain)).filterMap (·.2.observation?) := by
  induction lines generalizing s with
  | nil => rfl
  | cons line rest ih =>
    cases hline : matters line with
    | false =>
      obtain ⟨-, hobserved, hgoes⟩ := s.alike_step hline
      rw [course_cons hgoes, Course.observations, List.filterMap_cons_none hobserved,
        Course.log_cons_of_not_matters hline]
      exact ih _
    | true =>
      have hfirst : (Prod.map id Answer.plain (line, (s.step line).2)).2.observation? =
          (s.step line).2.observation? := Answer.observation?_plain _
      cases hcode : (s.step line).2.exitCode? with
      | some code =>
        rw [course_cons_of_exit (by rw [hcode]; rfl), Course.log_cons_of_matters hline,
          Course.observations, List.map_cons, List.filterMap_cons, List.filterMap_cons, hfirst,
          Course.log, List.zip_nil_right]
        rfl
      | none =>
        rw [course_cons hcode, Course.log_cons_of_matters hline, Course.observations, List.map_cons,
          List.filterMap_cons, List.filterMap_cons, hfirst, ← Course.observations, ih]
        rfl

/-- **Alike sessions take the same course** over the same lines that matter. -/
theorem Alike.same (h : Alike s s') (hlines : lines.filter matters = lines'.filter matters) :
    (s.course lines).Same (s'.course lines') := by
  obtain ⟨hlog, henv⟩ := h.log_filter lines
  obtain ⟨hlog', henv'⟩ := (Alike.refl s').log_filter lines'
  rw [← hlines] at hlog' henv'
  have hsame := hlog.trans hlog'.symm
  exact ⟨hsame, by rw [observations_course, observations_course, hsame], henv.trans henv'.symm⟩

/-! ## Starting anew -/

/-- The session is still open after the given lines. -/
def IsOpenAfter (s : Session) (lines : List (Option String)) : Prop :=
  ∀ answer ∈ s.answers lines, answer.exitCode? = none

theorem IsOpenAfter.cons (h : s.IsOpenAfter (line :: lines)) :
    (s.step line).2.exitCode? = none ∧ (s.step line).1.IsOpenAfter lines := by
  rw [IsOpenAfter, answers] at h
  dsimp only at h
  split at h
  · next hexit =>
    rw [h _ (List.mem_singleton_self _)] at hexit
    cases hexit
  · exact List.forall_mem_cons.1 h

/-- A session that is open goes on like the session that it has come to. -/
theorem IsOpenAfter.drop_course (h : s.IsOpenAfter lines) (rest : List (Option String)) :
    (s.course (lines ++ rest)).drop lines.length = (s.after lines).course rest := by
  induction lines generalizing s with
  | nil => rfl
  | cons line lines ih =>
    obtain ⟨hgoes, hopen⟩ := h.cons
    rw [List.cons_append, course_cons hgoes, after]
    dsimp only
    rw [hgoes]
    exact ih hopen

theorem builtins_step (s : Session) (line : Option String) :
    (s.step line).1.builtins = s.builtins := by
  cases hline : matters line with
  | false => exact (s.alike_step hline).1.builtins
  | true =>
    rcases step_cases hline with hstep | hstep | ⟨source, hstep⟩ <;> rw [hstep] <;> rfl

theorem builtins_after (s : Session) (lines : List (Option String)) :
    (s.after lines).builtins = s.builtins := by
  induction lines generalizing s with
  | nil => rfl
  | cons line rest ih =>
    rw [after]
    dsimp only
    split
    · exact s.builtins_step line
    · rw [ih, builtins_step]

theorem isEmpty_strip_of_ofLine? {text : String} {command : Command}
    (h : Command.ofLine? text = some command) : (Text.strip text).isEmpty = false := by
  cases hempty : (Text.strip text).isEmpty with
  | false => rfl
  | true =>
    have hslash : ("" : String).startsWith "/" = false := by decide +kernel
    simp only [Command.ofLine?, String.isEmpty_iff.1 hempty, hslash, Bool.false_eq_true, if_false,
      reduceCtorEq] at h

theorem step_reset (hline : isReset line = true) : s.step line = s.command .reset := by
  cases line with
  | none => cases hline
  | some line =>
    rw [isReset, decide_eq_true_iff] at hline
    rw [Session.step, isEmpty_strip_of_ofLine? hline, hline]
    rfl

/-- What comes after a reset goes like a fresh session, whatever this one shows. -/
theorem IsOpenAfter.same_of_isReset {front back : List (Option String)}
    (h : s.IsOpenAfter front) (hline : isReset line = true) (vars : Variables) :
    ((s.course (front ++ line :: back)).drop (front.length + 1)).Same
      ((start s.builtins vars).course back) := by
  have hcourse : (s.course (front ++ line :: back)).drop (front.length + 1) =
      (((s.after front).command .reset).1).course back := by
    have hgoes : ((s.after front).step line).2.exitCode? = none := by
      rw [step_reset hline]
      rfl
    calc (s.course (front ++ line :: back)).drop (front.length + 1)
        = ((s.course (front ++ line :: back)).drop front.length).drop 1 := by
          simp only [Course.drop, List.drop_drop]
      _ = ((s.after front).course (line :: back)).drop 1 := by rw [h.drop_course]
      _ = ((s.after front).step line).1.course back := by
          rw [course_cons hgoes]
          rfl
      _ = (((s.after front).command .reset).1).course back := by rw [step_reset hline]
  rw [hcourse]
  have hbuiltins := s.builtins_after front
  exact Alike.same ⟨hbuiltins, congrArg freshEnvironment hbuiltins⟩ rfl

/-! ## Lines that cannot be read -/

/-- A line that has no tree leaves the session as it is and writes nothing. -/
theorem step_eq_of_sourceError {run : Run} {traceback : Bool} {e : SourceError}
    (hanswer : (s.step line).2 = .evaluated run traceback)
    (hending : run.ending = .sourceError e) :
    (s.step line).1 = s ∧ run.output = "" := by
  obtain ⟨source, hstep⟩ : ∃ source, s.step line = s.evaluate source := by
    cases hline : matters line with
    | false =>
      have hobserved := (s.alike_step hline).2.1
      rw [hanswer] at hobserved
      cases hobserved
    | true =>
      rcases step_cases hline with hstep | hstep | ⟨source, hstep⟩
      · rw [hstep] at hanswer
        cases hanswer
      · rw [hstep] at hanswer
        cases hanswer
      · exact ⟨source, hstep s⟩
  rw [hstep, evaluate] at hanswer ⊢
  obtain ⟨rfl, -⟩ := Answer.evaluated.inj hanswer
  obtain ⟨henv, houtput⟩ := runSource_of_sourceError hending
  exact ⟨by rw [henv], houtput⟩

end Session

/-! ## The main result -/

/-- **Commands do not interfere with the program.**  In a session that starts afresh,

* the program does the same without the blank lines and without the commands that do not reset;
* after a reset the program does the same as in a fresh session, whatever its variables;
* and in every state of a session, a line that has no tree leaves the session as it is, and nothing
  is written, not even an outline. -/
theorem commands_do_not_interfere (b : Builtins) (vars : Variables) (lines : List (Option String)) :
    ((Session.start b vars).course lines).Same
        ((Session.start b vars).course (lines.filter matters)) ∧
      (∀ front line back, lines = front ++ line :: back → isReset line = true →
        (Session.start b vars).IsOpenAfter front → ∀ vars',
          (((Session.start b vars).course lines).drop (front.length + 1)).Same
            ((Session.start b vars').course back)) ∧
      ∀ (s : Session) line run traceback e, (s.step line).2 = .evaluated run traceback →
        run.ending = .sourceError e → (s.step line).1 = s ∧ run.output = "" := by
  refine ⟨(Session.Alike.refl _).same ?_, ?_, ?_⟩
  · rw [List.filter_filter]
    simp only [Bool.and_self]
  · rintro front line back rfl hline hopen vars'
    exact hopen.same_of_isReset hline vars'
  · intro s line run traceback e hanswer hending
    exact Session.step_eq_of_sourceError hanswer hending

/-- A session with outlines switched on, a line that cannot be read, a reset and an exit. -/
theorem commands_do_not_interfere_reset :
    let front := [some "/ast on", some "x := 1", some " ", some "/py-traceback", some "x + y"]
    let back := [some "println x", some "/ast", some "x := (1", some "exit 3", some "println 4"]
    let lines := front ++ some " /reset now" :: back
    let s := Session.start .standard []
    let opened := s.after front
    lines.filter matters =
        [some "x := 1", some "x + y", some " /reset now", some "println x", some "x := (1",
          some "exit 3", some "println 4"] ∧
      (s.course lines).Same (s.course (lines.filter matters)) ∧
      isReset (some " /reset now") = true ∧ s.IsOpenAfter front ∧
      ((s.course lines).drop (front.length + 1)).Same (s.course back) ∧
      (s.course lines).observations.map (·.error) =
        [none, some "unbound variable \"y\" (line 1, col 5)",
          some "unbound variable \"x\" (line 1, col 9)",
          some "[1:8] expected \")\" but got end of input", none] ∧
      opened.showTree = true ∧
      ∃ run traceback e, (opened.step (some "x := (1")).2 = .evaluated run traceback ∧
        run.ending = .sourceError e ∧ (opened.step (some "x := (1")).1 = opened ∧
        run.output = "" := by
  intro front back lines s opened
  obtain ⟨hsame, hreset, hunread⟩ := commands_do_not_interfere .standard [] lines
  have hline : isReset (some " /reset now") = true := by decide +kernel
  have hopen : s.IsOpenAfter front := by
    have hcodes : (s.answers front).all (·.exitCode?.isNone) = true := by decide +kernel
    intro answer hanswer
    exact Option.isNone_iff_eq_none.1 (List.all_eq_true.1 hcodes answer hanswer)
  refine ⟨by decide +kernel, hsame, hline, hopen, hreset front _ back rfl hline hopen [],
    by decide +kernel, by decide +kernel, ?_⟩
  have hanswer : (match (opened.step (some "x := (1")).2 with
      | .evaluated run _ => (match run.ending with | .sourceError _ => true | _ => false)
      | _ => false) = true := by decide +kernel
  split at hanswer
  · next run traceback hstep =>
    split at hanswer
    · next e hending =>
      exact ⟨run, traceback, e, hstep, hending, hunread opened _ run traceback e hstep hending⟩
    · cases hanswer
  · cases hanswer

end Juxta.Repl
