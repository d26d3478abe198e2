import Juxta.Proofs.Repl.Commands
import Juxta.Proofs.Token.Tiling

/-!
# Commands are no sources

A line is a command if a slash comes first on it, after blanks of any kind.  Nothing is lost by
this: as a source such a line has no tree.  The language knows fewer blanks than the session does,
and a line with one that it does not know has no tokens at all.  Without such a blank, its tokens
begin with line ends and then an operator that chains to the left, which leads no value.

## What is here

* `Token.exists_operator_of_tokenize` — the tokens of a line with blanks and then a slash;
  `Parser.exists_refuses` — they have no tree.
* `Session.handle` — what a session does with a line if it is a command; `Session.step_eq_handle`.
* `not_parsesTo_of_startsWith` — the line of a command has no tree.
* `commands_are_no_sources` — the main result.
-/

set_option autoImplicit false
namespace Juxta

/-! ## Blanks in front of a slash -/

namespace Token

variable {pos : Nat} {c : Char} {cs front rest : List Char} {pieces : List Token}

/-- Of all blanks, only white space and line ends are in the alphabet of sources. -/
theorem isLayout_of_isBlank (hblank : Text.isBlank c = true) (hc : inAlphabet c = true) :
    isLayout c = true := by
  have hrange : (9 ≤ c.toNat ∧ c.toNat ≤ 13) ∨ (28 ≤ c.toNat ∧ c.toNat ≤ 32) ∨ 133 ≤ c.toNat := by
    simp only [Text.isBlank, Text.blankRanges, List.any_cons, List.any_nil, Bool.or_eq_true,
      Bool.and_eq_true, decide_eq_true_eq, Bool.false_eq_true, or_false] at hblank
    omega
  rw [inAlphabet, Bool.or_eq_true, Bool.or_eq_true, List.contains_iff_mem] at hc
  rcases hc with (hdigit | halpha) | hmark
  · have hdigit : 48 ≤ c.toNat ∧ c.toNat ≤ 57 := by
      simpa [Char.isDigit, UInt32.le_iff_toNat_le] using hdigit
    omega
  · have halpha : (decide (65 ≤ c.toNat ∧ c.toNat ≤ 90) ||
        decide (97 ≤ c.toNat) && decide (c.toNat ≤ 122)) = true := halpha
    rw [Bool.or_eq_true, Bool.and_eq_true, decide_eq_true_iff, decide_eq_true_iff,
      decide_eq_true_iff] at halpha
    omega
  · have hmarks : marks.all (fun d => !Text.isBlank d || isLayout d) = true := by decide
    have hmark := List.all_eq_true.1 hmarks c hmark
    rwa [hblank, Bool.not_true, Bool.false_or] at hmark

/-- The first piece of a text is of a class that its first character leads. -/
theorem Cuts.exists_cons (h : Cuts pos (c :: cs) pieces) :
    ∃ t ts, pieces = t :: ts ∧ t.kind.leads c = true := by
  cases h with
  | cons hfirst =>
    have hne := ne_nil_of_firstLexeme hfirst
    rw [← lexeme_of_firstLexeme hfirst] at hne
    exact ⟨_, _, rfl, leads_of_lexeme_ne_nil hne⟩

/-- If a text with blanks and then a slash has pieces, they begin with white space and line ends,
and then comes the operator of the slash. -/
theorem Cuts.exists_operator (h : Cuts pos (front ++ '/' :: rest) pieces)
    (hfront : ∀ c ∈ front, Text.isBlank c = true) :
    ∃ blanks t ts, pieces = blanks ++ t :: ts ∧
      (∀ b ∈ blanks, b.kind = .newline ∨ b.kind = .whitespace) ∧ t.kind = .leftOperator := by
  obtain ⟨blanks, pieces, rfl, hblanks, hcuts⟩ := h.layout
  rw [List.dropWhile_append] at hcuts
  rcases hdrop : front.dropWhile isLayout with _ | ⟨c, cs⟩
  · rw [hdrop, List.isEmpty_nil, if_pos rfl, List.dropWhile_cons_of_neg (by decide)] at hcuts
    obtain ⟨t, ts, rfl, hlead⟩ := hcuts.exists_cons
    have hslash : ∀ k ∈ Kind.all, k.leads '/' = true → k = .leftOperator := by decide
    exact ⟨blanks, t, ts, rfl, hblanks, hslash t.kind (Kind.mem_all _) hlead⟩
  · -- a blank is left that no class begins with
    rw [hdrop, List.isEmpty_cons, if_neg Bool.false_ne_true, List.cons_append] at hcuts
    obtain ⟨t, ts, -, hlead⟩ := hcuts.exists_cons
    have hmem : c ∈ front := (List.dropWhile_sublist isLayout).subset (hdrop ▸ List.mem_cons_self)
    have hlayout := isLayout_of_isBlank (hfront c hmem) (inAlphabet_iff.2 ⟨t.kind, hlead⟩)
    have hnot := List.head?_dropWhile_not isLayout front
    simp [hdrop, hlayout] at hnot

/-- The tokens of a source with blanks and then a slash, if it has tokens: line ends, and then the
operator of the slash. -/
theorem exists_operator_of_tokenize {source : String} {ts : List Token}
    (h : tokenize source = .ok ts) (hsource : source.toList = front ++ '/' :: rest)
    (hfront : ∀ c ∈ front, Text.isBlank c = true) :
    ∃ lines t after, ts = lines ++ t :: after ∧ (∀ l ∈ lines, l.kind = .newline) ∧
      t.kind = .leftOperator := by
  obtain ⟨pieces, hcuts, rfl⟩ := cuts_of_tokenize h
  rw [hsource] at hcuts
  obtain ⟨blanks, t, after, rfl, hblanks, ht⟩ := hcuts.exists_operator hfront
  refine ⟨blanks.filter (·.kind.isKept false), t, after.filter (·.kind.isKept false), ?_, ?_, ht⟩
  · rw [List.filter_append, List.filter_cons_of_pos (by rw [ht]; rfl)]
  · intro l hl
    obtain ⟨hmem, hkept⟩ := List.mem_filter.1 hl
    refine (hblanks l hmem).resolve_right fun hspace => ?_
    rw [hspace] at hkept
    exact absurd hkept (by decide)

end Token

/-! ## No value begins with an operator -/

namespace Parser

variable {forms : List ValueForm} {lines after ts : List Token} {t : Token}

/-- In front of a token that leads no value no expression can be read. -/
theorem stuck_expression (h : formAt forms t = none) :
    Stuck forms .expression (t :: ts) "value" (t :: ts) :=
  .lhs (.callee (.base (.noValue h)))

/-- Neither operators that chain to the left nor line ends lead a value. -/
theorem formAt_eq_none (hlex : t.Lexical) (ht : t.kind = .leftOperator ∨ t.kind = .newline) :
    formAt standardForms t = none := by
  rcases ht with ht | ht <;>
  · rw [formAt_of_kind hlex (by simp [ht]), ht]
    rfl

/-- An operator in front of the first statement is where that is stuck. -/
theorem stuck_statements (hlines : ∀ l ∈ lines, l.kind = .newline) (hlex : t.Lexical)
    (ht : t.kind = .leftOperator) :
    Stuck standardForms .statements (lines ++ t :: ts) "value" (t :: ts) := by
  induction lines with
  | nil =>
    have hopens : opensStatement t = true := by
      refine decide_eq_true fun htext => ?_
      have hpunctuation := hlex.kind_of_text (c := '\x7d') rfl htext
      rw [ht] at hpunctuation
      exact absurd hpunctuation (by decide)
    exact .firstStatement (by simp [ht]) hopens (stuck_expression (formAt_eq_none hlex (.inl ht)))
  | cons l lines ih =>
    obtain ⟨hl, hlines⟩ := List.forall_mem_cons.1 hlines
    exact .newline hl (ih hlines)

/-- **Line ends and then an operator are refused in every mode.** -/
theorem exists_refuses (hlines : ∀ l ∈ lines, l.kind = .newline)
    (hlex : ∀ l ∈ lines ++ t :: ts, l.Lexical) (ht : t.kind = .leftOperator) (mode : Mode) :
    ∃ rest, mode.Refuses standardForms (lines ++ t :: ts) "value" rest := by
  have htlex := hlex t (by simp)
  have hstatements : Stuck standardForms .statements (lines ++ t :: ts) "value" (t :: ts) :=
    stuck_statements hlines htlex ht
  cases mode with
  | program => exact ⟨t :: ts, .inl hstatements⟩
  | expressions => exact ⟨t :: ts, hstatements⟩
  | expression =>
    -- an expression does not even skip line ends
    rcases lines with _ | ⟨l, lines⟩
    · exact ⟨t :: ts, stuck_expression (formAt_eq_none htlex (.inl ht))⟩
    · have hl := hlines l List.mem_cons_self
      exact ⟨_, stuck_expression (formAt_eq_none (hlex l List.mem_cons_self) (.inr hl))⟩

end Parser

namespace Repl

/-! ## Lines that are commands -/

/-- What a session does with a line if it is a command: whether it is one, and what comes of it.  A
line that is none is left to be evaluated. -/
def Session.handle (s : Session) (text : String) : Bool × Session × Answer :=
  match Command.ofLine? text with
  | some command => (true, s.command command)
  | none => (false, s, .silence)

/-- A line that is not blank is handled as a command, or evaluated where it was left. -/
theorem Session.step_eq_handle (s : Session) (line : String)
    (hline : (Text.strip (normalize line)).isEmpty = false) :
    s.step (some line) =
      match s.handle (normalize line) with
      | (true, result) => result
      | (false, next, _) => next.evaluate (normalize line) := by
  rw [step, hline, handle]
  cases Command.ofLine? (normalize line) <;> rfl

theorem Session.fst_handle (s : Session) (text : String) :
    (s.handle text).1 = (Text.strip text).startsWith "/" := by
  rw [handle, Command.ofLine?]
  cases (Text.strip text).startsWith "/" <;> rfl

/-- The slash of a command comes first on its line, after blanks. -/
theorem exists_blanks_of_startsWith {text : String}
    (h : (Text.strip text).startsWith "/" = true) :
    ∃ front rest, text.toList = front ++ '/' :: rest ∧ ∀ c ∈ front, Text.isBlank c = true := by
  have hslash : "/".toList = ['/'] := by decide
  rw [String.startsWith_string_iff, Text.strip, hslash, String.toList_ofList] at h
  have hfront := List.reverse_prefix.2
    (List.dropWhile_suffix (l := (text.toList.dropWhile Text.isBlank).reverse) Text.isBlank)
  rw [List.reverse_reverse] at hfront
  obtain ⟨rest, hrest⟩ := h.trans hfront
  have hsplit := List.takeWhile_append_dropWhile (p := Text.isBlank) (l := text.toList)
  rw [← hrest] at hsplit
  exact ⟨_, rest, hsplit.symm, fun c hc => List.mem_takeWhile_imp hc⟩

/-- The line of a command has no tree. -/
theorem not_parsesTo_of_startsWith {text : String} (h : (Text.strip text).startsWith "/" = true)
    (mode : Parser.Mode) (node : Node) :
    ¬ Parser.ParsesTo Parser.standardForms mode text (.ok node) := by
  obtain ⟨front, rest, htext, hfront⟩ := exists_blanks_of_startsWith h
  rintro (_ | _ | ⟨htokens, hmakes⟩)
  obtain ⟨lines, t, after, rfl, hlines, ht⟩ :=
    Token.exists_operator_of_tokenize htokens htext hfront
  obtain ⟨rest, hrefuses⟩ :=
    Parser.exists_refuses hlines (Token.lexical_of_tokenize htokens) ht mode
  exact hmakes.not_refuses hrefuses

/-! ## The main result -/

/-- **No command shadows a source.**  A line on which a slash comes first, after blanks of any kind,
is handled as a command; as a source it has no tree, so that running it would be an error in every
mode and at every frame, which leaves the environment as it is and writes nothing.  Any other line
is not handled: the session stays as it is, and nothing is shown. -/
theorem commands_are_no_sources (text : String) :
    ((Text.strip text).startsWith "/" = true →
      (∀ s : Session, (s.handle text).1 = true) ∧
      ∀ (options : RunOptions) (env : Environment) (frame : Nat), ∃ e trace,
        runSource options env frame text = ⟨.sourceError e, env, "", "", trace⟩) ∧
    ((Text.strip text).startsWith "/" = false → ∀ s : Session,
      s.handle text = (false, s, .silence) ∧ (s.handle text).2.2.output = ⟨"", "", []⟩) := by
  refine ⟨fun h => ⟨fun s => (s.fst_handle text).trans h, fun options env frame => ?_⟩,
    fun h s => ?_⟩
  · have hrun := runsTo_runSource options env frame text
    have hno := not_parsesTo_of_startsWith h options.mode
    generalize runSource options env frame text = run at hrun ⊢
    rcases hrun with _ | hparse | hparse | hparse | hparse
    · exact ⟨_, _, rfl⟩
    all_goals exact absurd hparse (hno _)
  · have hnone : s.handle text = (false, s, .silence) := by
      rw [Session.handle, Command.ofLine?, h]
      rfl
    rw [hnone]
    exact ⟨rfl, rfl⟩

/-- A no-break space, which the language does not know, and a form feed that a line end takes along,
in front of a slash; and a line with a slash that is no command. -/
theorem commands_are_no_sources_blanks :
    let s := Session.start .standard []
    let options : RunOptions := ⟨.expressions, true, false⟩
    (s.handle " \u00a0/ast on").1 = true ∧
      (∃ e trace, runSource options s.env 0 " \u00a0/ast on" =
        ⟨.sourceError e, s.env, "", "", trace⟩) ∧
      (s.handle "\n\x0c /2").1 = true ∧
      (∃ e trace, runSource options s.env 0 "\n\x0c /2" =
        ⟨.sourceError e, s.env, "", "", trace⟩) ∧
      s.handle "x / 2" = (false, s, .silence) := by
  intro s options
  obtain ⟨hhandled, hrun⟩ := (commands_are_no_sources " \u00a0/ast on").1 (by decide +kernel)
  obtain ⟨hhandled', hrun'⟩ := (commands_are_no_sources "\n\x0c /2").1 (by decide +kernel)
  have hother := (commands_are_no_sources "x / 2").2 (by decide +kernel) s
  exact ⟨hhandled s, hrun options s.env 0, hhandled' s, hrun' options s.env 0, hother.1⟩

end Repl
end Juxta
