import Juxta.Proofs.Parser.InStep

/-!
# Parsing goes forward, and ends

Whatever tokens a parser is given, be they those of a source or not, and wherever among them it
starts: a rule that makes a tree has consumed a token, and no rule ever takes the cursor back.  A
rule therefore comes back to itself only with fewer tokens ahead, and a loop does not go round more
often than there are tokens.

The rules are written down with a bound, and the loops with a limit.  That parsing ends is said of
what they would be without: the bound and the limit may be any number that is large enough, what
lies beyond them may be anything, and the equations between the rules, in which there is no bound,
have one solution.

## What is here

* `advanceOr` — consuming a token without looking; `takeIf_eq_advanceOr` and `skipNewlines_eq_many`
  say that the parsers look first.
* `firstOfFrom` — trying alternatives and going back after each; `firstOfFrom_eq_firstOf` says that
  there is nothing to go back over.
* `next_eq_iff` — the equations between the rules have one solution.
* `MakesProgress`, `Terminates` — what all this comes to; `rules_make_progress`.
-/

set_option autoImplicit false
namespace Juxta.Parser

variable {α : Type} {settings : Settings} {nested : Nested} {s s' : State}

/-! ## Looking before consuming -/

/-- Consumes the token at the cursor without having looked at it; at the end of the tokens this
comes to whatever `atEnd` comes to. -/
def advanceOr (atEnd : Parser Token) : Parser Token :=
  fun s =>
    match s.advance? with
    | some (t, s') => .ok t s'
    | none => atEnd s

/-- A token is consumed only after it has been looked at, so that there is one. -/
theorem takeIf_eq_advanceOr (atEnd : Parser Token) (test : Token → Bool) :
    takeIf test s = (do
      if ← nextIs test then return some (← advanceOr atEnd) else return none) s := by
  rw [bind_of_ok (nextIs_eq test s), takeIf]
  cases hs : s.ahead with
  | nil =>
    rw [State.advance?, hs]
    rfl
  | cons t ahead =>
    have hadvance : s.advance? = some (t, { s with seen := t :: s.seen, ahead }) := by
      rw [State.advance?, hs]
    rw [hadvance, begins_cons]
    cases ht : test t with
    | false => simp only [Bool.false_eq_true, if_false, ht]; rfl
    | true =>
      have htake : advanceOr atEnd s = .ok t { s with seen := t :: s.seen, ahead } := by
        rw [advanceOr, hadvance]
      rw [if_pos rfl, bind_of_ok htake]
      simp only [ht, if_true]
      rfl

/-- A loop over line ends consumes all that there are. -/
theorem manyUpTo_newline (atEnd : Parser Token) {limit : Nat} (h : s.ahead.length ≤ limit) :
    manyUpTo (fun t => t.kind = .newline) (advanceOr atEnd) limit s =
      let newlines := s.ahead.takeWhile fun t => t.kind = .newline
      .ok newlines { s with
        seen := newlines.reverse ++ s.seen
        ahead := s.ahead.drop newlines.length } := by
  obtain ⟨seen, ahead, depth, trace⟩ := s
  induction ahead generalizing seen limit with
  | nil => exact manyUpTo_of_begins rfl
  | cons t ahead ih =>
    by_cases ht : t.kind = .newline
    · obtain ⟨limit, rfl⟩ := Nat.exists_eq_add_one_of_ne_zero (Nat.ne_zero_of_lt h)
      have hnext : nextIs (fun t => t.kind = .newline) ⟨seen, t :: ahead, depth, trace⟩ =
          .ok true ⟨seen, t :: ahead, depth, trace⟩ := by
        rw [nextIs_eq, begins_cons, decide_eq_true ht]
      have hrest := ih (t :: seen) (Nat.le_of_succ_le_succ h)
      rw [manyUpTo, bind_of_ok hnext]
      refine (bind_of_ok (p := advanceOr atEnd) rfl).trans ((bind_of_ok hrest).trans ?_)
      simp [ht]
      rfl
    · rw [manyUpTo_of_begins (by simpa using ht)]
      simp [ht]

/-- So are the line ends that are skipped. -/
theorem skipNewlines_eq_many (atEnd : Parser Token) :
    skipNewlines s =
      (do let _ ← many (fun t => t.kind = .newline) (advanceOr atEnd) : Parser Unit) s := by
  have hmany := manyUpTo_newline (s := s) atEnd (Nat.le_refl _)
  exact (bind_of_ok (p := many _ _) (f := fun _ => pure ()) hmany).symm

/-! ## Going back after an alternative -/

/-- Takes the cursor back to where it was in another state. -/
def rewind (start : State) : Parser Unit :=
  fun s => .ok () { s with seen := start.seen, ahead := start.ahead }

/-- The first of some parsers that makes something, with the cursor taken back after each that does
not. -/
def firstOfFrom (start : State) : List (Parser (Option Node)) → Parser (Option Node)
  | [] => pure none
  | p :: ps => do
    match ← p with
    | some node => pure (some node)
    | none =>
      rewind start
      firstOfFrom start ps

/-- **There is nothing to go back over**: an alternative that makes nothing has consumed nothing. -/
theorem firstOfFrom_eq_firstOf (forms : List ValueForm) :
    firstOfFrom s (forms.map (·.parser nested)) s = firstOf (forms.map (·.parser nested)) s := by
  induction forms with
  | nil => rfl
  | cons form forms ih =>
    rw [List.map_cons, firstOfFrom, firstOf]
    cases hp : form.parser nested s with
    | error e s' => rw [bind_of_error hp, bind_of_error hp]
    | ok o s' =>
      rw [bind_of_ok hp, bind_of_ok hp]
      cases o with
      | some n => rfl
      | none =>
        obtain ⟨-, rfl⟩ := ValueForm.parser_eq_none_iff.1 hp
        exact (bind_of_ok (p := rewind s') rfl).trans ih

/-! ## The equations between the rules -/

/-- Companions that are everywhere in step with the same ones are the same. -/
theorem Nested.eq_of_inStep {nested nested' : Nested}
    (h : ∀ s : State, ∃ common : Nested,
      nested.InStep s.tokens (s.ahead.length + 1) common ∧
        nested'.InStep s.tokens (s.ahead.length + 1) common) : nested = nested' := by
  have hs := State.Within.self
  have hexpression : nested.expression = nested'.expression := by
    funext s
    obtain ⟨common, hleft, hright⟩ := h s
    exact (hleft.expression s (hs s)).eq.trans (hright.expression s (hs s)).eq.symm
  have hvalue : nested.propertyOrValue = nested'.propertyOrValue := by
    funext s
    obtain ⟨common, hleft, hright⟩ := h s
    exact (hleft.propertyOrValue s (hs s)).eq.trans (hright.propertyOrValue s (hs s)).eq.symm
  cases nested
  cases nested'
  congr

/-- **The equations between the rules have one solution**, the grammar without a bound. -/
theorem next_eq_iff : nested.next settings = nested ↔ nested = rules settings := by
  have hrules (s : State) (bottom : Nested) (bound : Nat) :
      (rules settings).InStep s.tokens bound (grammarOver settings bottom bound) :=
    rules_inStep (.refl settings _) bottom (Nat.le_refl _)
  constructor
  · intro h
    -- a solution is a grammar over itself, at any bound
    have hover (bound : Nat) : grammarOver settings nested bound = nested := by
      induction bound with
      | zero => rfl
      | succ bound ih => rw [grammarOver, ih, h]
    refine Nested.eq_of_inStep fun s => ⟨grammarOver settings nested (s.ahead.length + 1), ?_,
      hrules s nested _⟩
    rw [hover]
    have hsolution := grammarOver_inStep (.refl settings s.tokens) nested nested
      (Nat.le_refl (s.ahead.length + 1)) (Nat.le_refl _)
    rwa [hover] at hsolution
  · rintro rfl
    exact Nested.eq_of_inStep fun s => ⟨grammarOver settings (rules settings) (s.ahead.length + 1),
      (hrules s _ _).next (.refl settings _), hrules s _ _⟩

/-- The rules without a bound are in step with themselves: they go forward. -/
theorem rules_inStep_rules (settings : Settings) (ts : List Token) (bound : Nat) :
    (rules settings).InStep ts bound (rules settings) := by
  have hrules := rules_inStep (.refl settings ts) (rules settings) (Nat.le_refl bound)
  exact ⟨fun s hs => ⟨rfl, (hrules.expression s hs).proceeds⟩,
    fun s hs => ⟨rfl, (hrules.propertyOrValue s hs).proceeds⟩⟩

/-! ## What parsing comes to -/

/-- A loop is the same with every limit that is not below the number of tokens ahead. -/
def EndsByItself (more : Token → Bool) (item : Parser α) : Prop :=
  ∀ (s : State) (limit : Nat), s.ahead.length ≤ limit →
    manyUpTo more item limit s = many more item s

theorem endsByItself_of_inStep {more : Token → Bool} {item : Parser α}
    (h : ∀ s : State, InStep item item s fun _ s' => s.cursor < s'.cursor) :
    EndsByItself more item :=
  fun _ _ hlimit => (InStep.manyUpTo hlimit (Nat.le_refl _) fun s' _ _ => h s').eq

/-- From a state, every rule goes forward. -/
structure MakesProgress (settings : Settings) (s : State) : Prop where
  /-- An expression consumes at least one token, or fails; so do the next three. -/
  expression : Proceeds (expression settings) s fun _ s' => s.cursor < s'.cursor
  intermediate : Proceeds (inGrammar settings (intermediate settings)) s
    fun _ s' => s.cursor < s'.cursor
  propertyOrValue : Proceeds (inGrammar settings (propertyOrValue settings)) s
    fun _ s' => s.cursor < s'.cursor
  value : Proceeds (inGrammar settings (value settings)) s fun _ s' => s.cursor < s'.cursor
  /-- A form consumes at least one token, or fails, or makes nothing and leaves the state. -/
  form : ∀ form : ValueForm, Proceeds (inGrammar settings form.parser) s (Takes s)
  /-- A chain of operators, which may be empty, does not take the cursor back. -/
  leftBinary : ∀ lhs : Node, Proceeds (inGrammar settings (leftBinary settings · lhs)) s
    fun _ _ => True
  /-- Nor do statements. -/
  statements : Proceeds (inGrammar settings statements) s fun _ _ => True
  /-- To go back after every form that makes nothing would change nothing. -/
  firstOf : ∀ nested : Nested,
    firstOfFrom s (settings.forms.map (·.parser nested)) s =
      firstOf (settings.forms.map (·.parser nested)) s
  /-- The cursor never gets past the end. -/
  cursor_le : ∀ s', s.Onward s' → s'.cursor ≤ s.tokens.length
  /-- What it would come to to consume a token at the end does not matter. -/
  takeIf : ∀ (atEnd : Parser Token) (test : Token → Bool),
    takeIf test s = (do
      if ← nextIs test then return some (← advanceOr atEnd) else return none) s
  /-- Nor does it where line ends are skipped. -/
  skipNewlines : ∀ atEnd : Parser Token,
    skipNewlines s =
      (do let _ ← many (fun t => t.kind = .newline) (advanceOr atEnd) : Parser Unit) s

/-- The recursion of the rules ends without their bound, and the loops end without their limit. -/
structure Terminates (settings : Settings) : Prop where
  /-- Below a number of uses that exceeds the tokens ahead, the companions may be anything. -/
  bottom : ∀ (bottom : Nested) (bound : Nat) (s : State), s.ahead.length < bound →
    (grammarOver settings bottom bound).expression s = (rules settings).expression s ∧
      (grammarOver settings bottom bound).propertyOrValue s = (rules settings).propertyOrValue s
  /-- The rules solve their equations, and nothing else does. -/
  solution : ∀ nested : Nested, nested.next settings = nested ↔ nested = rules settings
  /-- The other rules have these as their companions. -/
  intermediate : inGrammar settings (intermediate settings) = intermediate settings (rules settings)
  value : inGrammar settings (value settings) = value settings (rules settings)
  form : ∀ form : ValueForm, inGrammar settings form.parser = form.parser (rules settings)
  leftBinary : ∀ lhs : Node, inGrammar settings (leftBinary settings · lhs) =
    leftBinary settings (rules settings) lhs
  statements : inGrammar settings statements = (do
    skipNewlines
    many (·.text ≠ "\x7d") (statement (rules settings)))
  /-- The four loops. -/
  statementLoop : EndsByItself (·.text ≠ "\x7d") (statement (rules settings))
  propertyLoop : EndsByItself (·.text = ".") propertyName
  operandLoop : EndsByItself (·.kind = .leftOperator) (leftOperand settings (rules settings))
  argumentLoop : EndsByItself (!endsCall ·) (argument settings (rules settings))

theorem makesProgress (settings : Settings) (s : State) : MakesProgress settings s := by
  have hset := Settings.Interchangeable.refl settings s.tokens
  have hs := State.Within.self s
  have hs' := hs.succ
  exact {
    expression := (inGrammar_inStep hset fun _ _ hn => hn.expression s hs).proceeds
    intermediate := (inGrammar_inStep hset fun _ _ hn => intermediate_inStep hset hn hs').proceeds
    propertyOrValue :=
      (inGrammar_inStep hset fun _ _ hn => propertyOrValue_inStep hset hn hs').proceeds
    value := (inGrammar_inStep hset fun _ _ hn => value_inStep hset hn hs').proceeds
    form := fun form => (inGrammar_inStep hset fun _ _ hn => form.parser_inStep hn hs').proceeds
    leftBinary := fun lhs =>
      (inGrammar_inStep hset fun _ _ hn => leftBinary_inStep hset hn hs' lhs).proceeds
    statements := (inGrammar_inStep hset fun _ _ hn => statements_inStep hn hs).proceeds
    firstOf := fun _ => firstOfFrom_eq_firstOf settings.forms
    cursor_le := fun _ h => h.cursor_le_length
    takeIf := fun atEnd test => takeIf_eq_advanceOr atEnd test
    skipNewlines := fun atEnd => skipNewlines_eq_many atEnd }

theorem terminates (settings : Settings) : Terminates settings := by
  have hset (s : State) := Settings.Interchangeable.refl settings s.tokens
  have hs := State.Within.self
  have hs' (s : State) := (hs s).succ
  have hrules (s : State) := rules_inStep_rules settings s.tokens (s.ahead.length + 1)
  exact {
    bottom := fun bottom bound s hbound => by
      have hbottom := rules_inStep (hset s) bottom hbound
      exact ⟨(hbottom.expression s (hs s)).eq.symm, (hbottom.propertyOrValue s (hs s)).eq.symm⟩
    solution := fun _ => next_eq_iff
    intermediate := funext fun s =>
      (inGrammar_inStep_rules fun _ _ hn => intermediate_inStep (hset s) hn (hs' s)).eq.symm
    value := funext fun s =>
      (inGrammar_inStep_rules fun _ _ hn => value_inStep (hset s) hn (hs' s)).eq.symm
    form := fun form => funext fun s =>
      (inGrammar_inStep_rules fun _ _ hn => form.parser_inStep hn (hs' s)).eq.symm
    leftBinary := fun lhs => funext fun s =>
      (inGrammar_inStep_rules fun _ _ hn => leftBinary_inStep (hset s) hn (hs' s) lhs).eq.symm
    statements := funext fun s =>
      (inGrammar_inStep_rules fun _ _ hn => statements_inStep hn (hs s)).eq.symm
    statementLoop := endsByItself_of_inStep fun s => statement_inStep (hrules s) (hs s)
    propertyLoop := endsByItself_of_inStep fun _ => propertyName_inStep
    operandLoop := endsByItself_of_inStep fun s => leftOperand_inStep (hset s) (hrules s) (hs' s)
    argumentLoop := endsByItself_of_inStep fun s => argument_inStep (hset s) (hrules s) (hs' s) }

/-- **Every rule makes progress, and parsing ends**, on all lists of tokens and from every place in
them. -/
theorem rules_make_progress (settings : Settings) :
    (∀ s : State, MakesProgress settings s) ∧ Terminates settings :=
  ⟨makesProgress settings, terminates settings⟩

end Juxta.Parser
