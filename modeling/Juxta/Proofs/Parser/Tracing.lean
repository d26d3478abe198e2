import Juxta.Parser.Source
import Mathlib.Data.List.Basic

/-!
# Tracing a parse

A parse that is traced does what it does without: it makes the same tree or the same error, and its
cursor comes to the same place.  Its records form a nest, however it ends: a rule that is entered is
left at the same depth, and what is recorded in between stands deeper.

The two parses are run side by side.  What relates them is kept by every way of putting parsers
together, and only the recording of a rule adds to the trace.

## What is here

* `Balanced` — a list of records that forms a nest at a depth; `Balanced.exists_exit` finds the
  record that a rule was left.
* `Traces p q` — the parser `p` is the parser `q` with a trace, with one rule for each way of
  putting parsers together.
* `Rule.parser` — the parsers of the seven rules that are traced, and `Rule.parser_records`.
-/

set_option autoImplicit false
namespace Juxta.Parser

/-! ## Nests of records -/

/-- The number of rules around a record. -/
def Event.depth : Event → Nat
  | enter depth _ _ | exit depth _ => depth

@[simp] theorem Event.depth_exit (d : Nat) (rule : Rule) : (Event.exit d rule).depth = d := rfl

/-- The line of a record is indented by two blanks for every rule around it. -/
theorem Event.indentation_text (e : Event) :
    (e.text.toList.takeWhile (· = ' ')).length = 2 * e.depth := by
  have htext : ∃ rest, e.text.toList = List.replicate (2 * e.depth) ' ' ++ 'e' :: rest := by
    cases e with
    | enter d rule found => exact ⟨_, by simp [text, Node.indent]; rfl⟩
    | exit d rule => exact ⟨_, by simp [text, Node.indent]; rfl⟩
  obtain ⟨rest, hrest⟩ := htext
  rw [hrest, List.takeWhile_append_of_pos (by simp), List.takeWhile_cons_of_neg (by decide)]
  simp

/-- The records form a nest at a depth: whole rules one after the other, with nests inside. -/
inductive Balanced : Nat → List Event → Prop
  | nil {d : Nat} : Balanced d []
  | block {d : Nat} {rule : Rule} {found : String} {inner rest : List Event}
      (hinner : Balanced (d + 1) inner) (hrest : Balanced d rest) :
      Balanced d (.enter d rule found :: (inner ++ .exit d rule :: rest))

namespace Balanced

variable {d : Nat} {events more : List Event}

theorem append (h : Balanced d events) (hmore : Balanced d more) : Balanced d (events ++ more) := by
  induction h with
  | nil => exact hmore
  | block hinner _ _ ih =>
    rw [List.cons_append, List.append_assoc, List.cons_append]
    exact .block hinner (ih hmore)

/-- Nothing in a nest stands less deep than the nest. -/
theorem le_depth (h : Balanced d events) : ∀ e ∈ events, d ≤ e.depth := by
  induction h with
  | nil => simp
  | block _ _ ihinner ihrest =>
    intro e he
    simp only [List.mem_cons, List.mem_append] at he
    rcases he with rfl | he | rfl | he
    · exact Nat.le_refl _
    · exact Nat.le_of_succ_le (ihinner e he)
    · exact Nat.le_refl _
    · exact ihrest e he

/-- **A rule that is entered is left**, and there is a nest in between. -/
theorem exists_exit (h : Balanced d events) {before after : List Event} {k : Nat} {rule : Rule}
    {found : String} (hevents : events = before ++ .enter k rule found :: after) :
    ∃ inner rest, after = inner ++ .exit k rule :: rest ∧ Balanced (k + 1) inner := by
  induction h generalizing before after with
  | nil => simp at hevents
  | @block d rule' found' inner rest hinner _ ihinner ihrest =>
    obtain _ | ⟨e, before⟩ := before
    · simp only [List.nil_append, List.cons.injEq, Event.enter.injEq] at hevents
      obtain ⟨⟨rfl, rfl, rfl⟩, rfl⟩ := hevents
      exact ⟨inner, rest, rfl, hinner⟩
    · obtain ⟨-, hevents⟩ := List.cons.inj hevents
      -- the entry stands in the nest inside the first rule, or behind that rule
      rcases List.append_eq_append_iff.1 hevents with ⟨mid, rfl, hmid⟩ | ⟨mid, rfl, hmid⟩
      · obtain _ | ⟨e, mid⟩ := mid
        · simp at hmid
        · obtain ⟨rfl, rfl⟩ := List.cons.inj hmid
          exact ihrest rfl
      · obtain _ | ⟨e, mid⟩ := mid
        · simp at hmid
        · obtain ⟨rfl, rfl⟩ := List.cons.inj hmid
          obtain ⟨inner', rest', rfl, hinner'⟩ := ihinner rfl
          exact ⟨inner', rest' ++ .exit d rule' :: rest, by simp, hinner'⟩

end Balanced

/-- What stands deeper than the record behind it is determined by that. -/
theorem eq_of_append_exit {d : Nat} {rule : Rule} {inner inner' rest rest' : List Event}
    (h : inner ++ .exit d rule :: rest = inner' ++ .exit d rule :: rest')
    (hinner : ∀ e ∈ inner, d + 1 ≤ e.depth) (hinner' : ∀ e ∈ inner', d + 1 ≤ e.depth) :
    inner = inner' ∧ rest = rest' := by
  have htake (deeper behind : List Event) (hdeeper : ∀ e ∈ deeper, d + 1 ≤ e.depth) :
      (deeper ++ .exit d rule :: behind).takeWhile (fun e => decide (d < e.depth)) = deeper := by
    rw [List.takeWhile_append_of_pos fun e he => decide_eq_true (Nat.lt_of_succ_le (hdeeper e he)),
      List.takeWhile_cons_of_neg (by simp), List.append_nil]
  have heq : inner = inner' := by rw [← htake inner rest hinner, h, htake inner' rest' hinner']
  subst heq
  exact ⟨rfl, by simpa using h⟩

/-! ## Two parses side by side -/

variable {α β : Type}

/-- The cursors are at the same place. -/
structure State.Beside (s s' : State) : Prop where
  seen : s.seen = s'.seen
  ahead : s.ahead = s'.ahead

/-- A parse goes from `s` to `t` with a trace, and one from `s'` to `t'` without. -/
structure Steps (s s' t t' : State) : Prop where
  beside : t.Beside t'
  depth : t.depth = s.depth
  trace : ∃ events, Balanced s.depth events ∧ t.trace = events.reverse ++ s.trace
  plain : t'.depth = s'.depth ∧ t'.trace = s'.trace

theorem Steps.refl {s s' : State} (h : s.Beside s') : Steps s s' s s' :=
  ⟨h, rfl, ⟨[], .nil, rfl⟩, rfl, rfl⟩

theorem Steps.trans {s s' t t' u u' : State} (h : Steps s s' t t') (h' : Steps t t' u u') :
    Steps s s' u u' := by
  obtain ⟨events, hevents, htrace⟩ := h.trace
  obtain ⟨more, hmore, htrace'⟩ := h'.trace
  refine ⟨h'.beside, h'.depth.trans h.depth, ⟨events ++ more, ?_, ?_⟩, h'.plain.1.trans h.plain.1,
    h'.plain.2.trans h.plain.2⟩
  · exact hevents.append (h.depth ▸ hmore)
  · rw [htrace', htrace, List.reverse_append, List.append_assoc]

/-- Both parses make the same result, or the same error. -/
inductive SameResult (s s' : State) :
    EStateM.Result ParseError State α → EStateM.Result ParseError State α → Prop
  | ok {a : α} {t t' : State} (h : Steps s s' t t') : SameResult s s' (.ok a t) (.ok a t')
  | error {e : ParseError} {t t' : State} (h : Steps s s' t t') :
      SameResult s s' (.error e t) (.error e t')

/-- The first parser is the second one with a trace. -/
def Traces (p q : Parser α) : Prop :=
  ∀ s s', s.Beside s' → SameResult s s' (p s) (q s')

namespace Traces

variable {p q : Parser α} {f g : α → Parser β}

theorem pure (a : α) : Traces (Pure.pure a) (Pure.pure a) := fun _ _ hs => .ok (.refl hs)

theorem fail (expected : String) :
    Traces (Parser.fail expected : Parser α) (Parser.fail expected) := by
  intro s s' hs
  have herror : s.error expected = s'.error expected := by
    rw [State.error, State.error, State.current, State.current, State.offset, State.offset,
      hs.seen, hs.ahead]
  rw [Parser.fail, Parser.fail, herror]
  exact .error (.refl hs)

theorem bind (h : Traces p q) (hf : ∀ a, Traces (f a) (g a)) : Traces (p >>= f) (q >>= g) := by
  intro s s' hs
  have hpq := h s s' hs
  show SameResult s s' (EStateM.bind p f s) (EStateM.bind q g s')
  rw [EStateM.bind, EStateM.bind]
  generalize p s = r, q s' = r' at hpq
  cases hpq with
  | error hst => exact .error hst
  | @ok a t t' hst =>
    have hfg := hf a t t' hst.beside
    dsimp only
    generalize f a t = r, g a t' = r' at hfg
    cases hfg with
    | ok hst' => exact .ok (hst.trans hst')
    | error hst' => exact .error (hst.trans hst')

/-! ### One token -/

theorem nextIs (test : Token → Bool) : Traces (Parser.nextIs test) (Parser.nextIs test) := by
  intro s s' hs
  have hcurrent : s.current = s'.current := by rw [State.current, State.current, hs.ahead]
  rw [Parser.nextIs, Parser.nextIs, hcurrent]
  exact .ok (.refl hs)

theorem takeIf (test : Token → Bool) : Traces (Parser.takeIf test) (Parser.takeIf test) := by
  intro s s' hs
  rw [Parser.takeIf, Parser.takeIf, State.advance?, State.advance?, ← hs.ahead]
  cases hahead : s.ahead with
  | nil => exact .ok (.refl hs)
  | cons t ahead =>
    by_cases htest : test t = true
    · simp only [htest, if_true]
      refine .ok ⟨⟨?_, rfl⟩, rfl, ⟨[], .nil, rfl⟩, rfl, rfl⟩
      simp [hs.seen]
    · simp only [htest]
      exact .ok (.refl hs)

theorem skipNewlines : Traces Parser.skipNewlines Parser.skipNewlines := by
  intro s s' hs
  rw [Parser.skipNewlines, Parser.skipNewlines]
  refine .ok ⟨⟨?_, ?_⟩, rfl, ⟨[], .nil, rfl⟩, rfl, rfl⟩
  · simp [hs.seen, hs.ahead]
  · simp [hs.ahead]

theorem expect (test : Token → Bool) (expected : String) :
    Traces (Parser.expect test expected) (Parser.expect test expected) := by
  refine bind (takeIf test) fun o => ?_
  cases o with
  | none => exact fail expected
  | some t => exact pure t

theorem skipText (text : String) : Traces (Parser.skipText text) (Parser.skipText text) :=
  bind (takeIf _) fun _ => pure _

/-! ### Repetition -/

theorem manyUpTo {item item' : Parser α} (more : Token → Bool) (h : Traces item item')
    (limit : Nat) :
    Traces (Parser.manyUpTo more item limit) (Parser.manyUpTo more item' limit) := by
  induction limit with
  | zero => exact pure []
  | succ limit ih =>
    refine bind (nextIs more) fun b => ?_
    cases b with
    | false => exact pure []
    | true => exact bind h fun a => bind ih fun as => pure (a :: as)

theorem many {item item' : Parser α} (more : Token → Bool) (h : Traces item item') :
    Traces (Parser.many more item) (Parser.many more item') := by
  intro s s' hs
  rw [Parser.many, Parser.many, hs.ahead]
  exact manyUpTo more h _ s s' hs

/-! ### Records -/

/-- What is recorded inside a rule makes a block with the records of that rule. -/
theorem exists_block {s s' t t' : State} {rule : Rule} (h : Steps (s.enter rule) s' t t') :
    ∃ inner, Balanced (s.depth + 1) inner ∧ (t.exit rule).trace =
      (.enter s.depth rule (describe s.current) :: (inner ++ [.exit s.depth rule])).reverse ++
        s.trace := by
  obtain ⟨inner, hinner, htrace⟩ := h.trace
  have hdepth : t.depth = s.depth + 1 := h.depth
  refine ⟨inner, hinner, ?_⟩
  rw [State.exit, hdepth, htrace]
  simp [State.enter]

theorem exit_steps {s s' t t' : State} {rule : Rule} (h : Steps (s.enter rule) s' t t') :
    Steps s s' (t.exit rule) t' := by
  obtain ⟨inner, hinner, htrace⟩ := exists_block h
  have hdepth : t.depth - 1 = s.depth := by rw [h.depth]; rfl
  exact ⟨⟨h.beside.seen, h.beside.ahead⟩, hdepth, ⟨_, .block hinner .nil, htrace⟩, h.plain⟩

/-- **To record a rule adds its block to the trace, and changes nothing else.** -/
theorem traced (rule : Rule) (h : Traces p q) :
    Traces (Parser.traced true rule p) (Parser.traced false rule q) := by
  intro s s' hs
  have hpq := h (s.enter rule) s' ⟨hs.seen, hs.ahead⟩
  rw [Parser.traced, Parser.traced, if_pos rfl, if_neg Bool.false_ne_true]
  generalize p (s.enter rule) = r, q s' = r' at hpq
  cases hpq with
  | ok hst => exact .ok (exit_steps hst)
  | error hst => exact .error (exit_steps hst)

end Traces

/-! ## The grammar -/

/-- The parsers of a rule, with and without a trace. -/
def Records (rule : Rule) (p q : Parser α) : Prop :=
  ∃ p' q', Traces p' q' ∧ p = Parser.traced true rule p' ∧ q = Parser.traced false rule q'

theorem Records.traces {rule : Rule} {p q : Parser α} (h : Records rule p q) : Traces p q := by
  obtain ⟨p', q', hbody, rfl, rfl⟩ := h
  exact hbody.traced rule

/-- The rules further ahead, with and without a trace. -/
structure Nested.Traces (nested nested' : Nested) : Prop where
  expression : Parser.Traces nested.expression nested'.expression
  propertyOrValue : Parser.Traces nested.propertyOrValue nested'.propertyOrValue

section Rules

variable {nested nested' : Nested} (h : nested.Traces nested') (forms : List ValueForm)
include h

theorem statements_traces : Traces (statements nested) (statements nested') := by
  refine .bind .skipNewlines fun _ => .many _ ?_
  refine .bind h.expression fun node => ?_
  exact .bind (.skipText ";") fun _ => .bind .skipNewlines fun _ => .pure node

theorem parens_traces : Traces (parens nested) (parens nested') := by
  refine .bind (.takeIf _) fun o => ?_
  cases o with
  | none => exact .pure none
  | some t => exact .bind h.expression fun inner => .bind (.expect _ _) fun _ => .pure _

theorem block_traces : Traces (block nested) (block nested') := by
  refine .bind (.takeIf _) fun o => ?_
  cases o with
  | none => exact .pure none
  | some t =>
    refine .bind .skipNewlines fun _ => .bind (statements_traces h) fun body => ?_
    exact .bind .skipNewlines fun _ => .bind (.expect _ _) fun _ => .pure _

theorem quoted_traces : Traces (quoted nested) (quoted nested') := by
  refine .bind (.takeIf _) fun o => ?_
  cases o with
  | none => exact .pure none
  | some t => exact .bind h.propertyOrValue fun inner => .pure _

theorem unquote_traces : Traces (unquote nested) (unquote nested') := by
  refine .bind (.takeIf _) fun o => ?_
  cases o with
  | none => exact .pure none
  | some t =>
    refine .bind (parens_traces h) fun o => ?_
    cases o with
    | none => exact .fail _
    | some inner => exact .pure _

theorem parser_traces (form : ValueForm) : Traces (form.parser nested) (form.parser nested') := by
  cases form with
  | parens => exact parens_traces h
  | block => exact block_traces h
  | identifier | float | string => exact .bind (.takeIf _) fun _ => .pure _
  | integer =>
    refine .bind (.nextIs _) fun b => ?_
    cases b with
    | false => exact .bind (.takeIf _) fun _ => .pure _
    | true => exact .fail _
  | quoted => exact quoted_traces h
  | unquote => exact unquote_traces h

theorem firstOf_traces : Traces (firstOf (forms.map (·.parser nested)))
    (firstOf (forms.map (·.parser nested'))) := by
  induction forms with
  | nil => exact .pure none
  | cons form forms ih =>
    refine .bind (parser_traces h form) fun o => ?_
    cases o with
    | none => exact ih
    | some node => exact .pure (some node)

theorem value_records :
    Records .value (value ⟨true, forms⟩ nested) (value ⟨false, forms⟩ nested') := by
  refine ⟨_, _, .bind (firstOf_traces h forms) fun o => ?_, rfl, rfl⟩
  cases o with
  | none => exact .fail _
  | some node => exact .pure node

theorem propertyOrValue_records : Records .propertyOrValue
    (propertyOrValue ⟨true, forms⟩ nested) (propertyOrValue ⟨false, forms⟩ nested') := by
  have hname : Traces propertyName propertyName := .bind (.expect _ _) fun _ => .expect _ _
  refine ⟨_, _, .bind (value_records h forms).traces fun base => ?_, rfl, rfl⟩
  exact .bind (.many _ hname) fun names => .pure _

theorem leftBinary_records (lhs : Node) : Records .leftBinary
    (leftBinary ⟨true, forms⟩ nested lhs) (leftBinary ⟨false, forms⟩ nested' lhs) := by
  have hoperand : Traces (leftOperand ⟨true, forms⟩ nested) (leftOperand ⟨false, forms⟩ nested') :=
    .bind (.expect _ _) fun op =>
      .bind (propertyOrValue_records h forms).traces fun rhs => .pure (op, rhs)
  exact ⟨_, _, .bind (.many _ hoperand) fun operands => .pure _, rfl, rfl⟩

theorem argument_traces :
    Traces (argument ⟨true, forms⟩ nested) (argument ⟨false, forms⟩ nested') := by
  have hchain : Traces (chain ⟨true, forms⟩ nested) (chain ⟨false, forms⟩ nested') :=
    .bind (propertyOrValue_records h forms).traces fun lhs =>
      (leftBinary_records h forms lhs).traces
  exact .bind hchain fun arg => .bind (.skipText ",") fun _ => .pure arg

theorem intermediate_records : Records .intermediate
    (intermediate ⟨true, forms⟩ nested) (intermediate ⟨false, forms⟩ nested') := by
  refine ⟨_, _, .bind (propertyOrValue_records h forms).traces fun first =>
    .bind (.nextIs _) fun b => ?_, rfl, rfl⟩
  cases b with
  | true => exact (leftBinary_records h forms first).traces
  | false => exact .bind (.many _ (argument_traces h forms)) fun args => .pure _

theorem expressionRule_records : Records .expression
    (expressionRule ⟨true, forms⟩ nested) (expressionRule ⟨false, forms⟩ nested') := by
  refine ⟨_, _, .bind (intermediate_records h forms).traces fun lhs =>
    .bind (.takeIf _) fun o => ?_, rfl, rfl⟩
  cases o with
  | none => exact .pure lhs
  | some op => exact .bind h.expression fun rhs => .pure _

end Rules

/-- The rules are traced up to any bound: what a rule uses further ahead has the bound below. -/
theorem grammar_traces (forms : List ValueForm) (bound : Nat) :
    (grammar ⟨true, forms⟩ bound).Traces (grammar ⟨false, forms⟩ bound) := by
  induction bound with
  | zero => exact ⟨.fail _, .fail _⟩
  | succ bound ih =>
    exact ⟨(expressionRule_records ih forms).traces, (propertyOrValue_records ih forms).traces⟩

/-! ## The rules -/

/-- The parser of a rule.  The chain of operators goes on from a first operand. -/
def Rule.parser (settings : Settings) (first : Node) : Rule → Parser Node
  | program => Parser.program settings
  | expressions => Parser.expressions settings
  | expression => Parser.expression settings
  | intermediate => inGrammar settings (Parser.intermediate settings)
  | leftBinary => inGrammar settings (Parser.leftBinary settings · first)
  | propertyOrValue => inGrammar settings (·.propertyOrValue)
  | value => inGrammar settings (Parser.value settings)

/-- Wherever a rule is started, it is one that is recorded. -/
theorem Rule.parser_records (rule : Rule) (forms : List ValueForm) (first : Node) (s : State) :
    ∃ p q, Records rule p q ∧ rule.parser ⟨true, forms⟩ first s = p s ∧
      rule.parser ⟨false, forms⟩ first s = q s := by
  have hgrammar := grammar_traces forms
  have hstatements : Traces (inGrammar ⟨true, forms⟩ statements)
      (inGrammar ⟨false, forms⟩ statements) := by
    intro s s' hs
    rw [inGrammar, inGrammar, hs.ahead]
    exact statements_traces (hgrammar _) s s' hs
  cases rule with
  | program =>
    refine ⟨_, _, ⟨_, _, .bind hstatements fun body => .bind (.nextIs _) fun b => ?_, rfl, rfl⟩,
      rfl, rfl⟩
    cases b with
    | false => exact .pure _
    | true => exact .fail _
  | expressions => exact ⟨_, _, ⟨_, _, .bind hstatements fun body => .pure _, rfl, rfl⟩, rfl, rfl⟩
  | expression => exact ⟨_, _, expressionRule_records (hgrammar _) forms, rfl, rfl⟩
  | intermediate => exact ⟨_, _, intermediate_records (hgrammar _) forms, rfl, rfl⟩
  | leftBinary => exact ⟨_, _, leftBinary_records (hgrammar _) forms first, rfl, rfl⟩
  | propertyOrValue => exact ⟨_, _, propertyOrValue_records (hgrammar _) forms, rfl, rfl⟩
  | value => exact ⟨_, _, value_records (hgrammar _) forms, rfl, rfl⟩

/-- What a parse comes to, apart from its trace: its result, and the tokens around the cursor. -/
def outcome :
    EStateM.Result ParseError State Node → Except ParseError Node × List Token × List Token
  | .ok node s => (.ok node, s.seen, s.ahead)
  | .error e s => (.error e, s.seen, s.ahead)

/-- The state in which a parse ends. -/
def stateAfter : EStateM.Result ParseError State Node → State
  | .ok _ s | .error _ s => s

/-- Every rule that is entered is left once, at the same depth, and all in between stands deeper. -/
def WellNested (events : List Event) : Prop :=
  ∀ before d rule found after, events = before ++ .enter d rule found :: after →
    ∃! parts : List Event × List Event,
      after = parts.1 ++ .exit d rule :: parts.2 ∧ ∀ e ∈ parts.1, d + 1 ≤ e.depth

theorem Balanced.wellNested {d : Nat} {events : List Event} (h : Balanced d events) :
    WellNested events := by
  intro before k rule found after hevents
  obtain ⟨inner, rest, rfl, hinner⟩ := h.exists_exit hevents
  refine ⟨(inner, rest), ⟨rfl, hinner.le_depth⟩, fun parts hparts => ?_⟩
  obtain ⟨hinner', hrest⟩ := eq_of_append_exit hparts.1 hinner.le_depth hparts.2
  rw [hinner', hrest]

theorem SameResult.steps {s s' : State} {r r' : EStateM.Result ParseError State Node}
    (h : SameResult s s' r r') :
    outcome r = outcome r' ∧ Steps s s' (stateAfter r) (stateAfter r') := by
  cases h with
  | ok h => exact ⟨by rw [outcome, outcome, h.beside.seen, h.beside.ahead], h⟩
  | error h => exact ⟨by rw [outcome, outcome, h.beside.seen, h.beside.ahead], h⟩

/-- The trace of a rule is a block. -/
theorem Records.exists_block {rule : Rule} {p q : Parser Node} (h : Records rule p q) (s : State) :
    ∃ inner, Balanced (s.depth + 1) inner ∧ (stateAfter (p s)).trace.reverse =
      s.trace.reverse ++
        .enter s.depth rule (describe s.current) :: (inner ++ [.exit s.depth rule]) := by
  obtain ⟨p, q, hpq, rfl, rfl⟩ := h
  have hstate : stateAfter (traced true rule p s) = (stateAfter (p (s.enter rule))).exit rule := by
    rw [traced, if_pos rfl]
    cases p (s.enter rule) <;> rfl
  obtain ⟨inner, hinner, htrace⟩ := Traces.exists_block (hpq (s.enter rule) s ⟨rfl, rfl⟩).steps.2
  refine ⟨inner, hinner, ?_⟩
  rw [hstate, htrace]
  simp

end Juxta.Parser
