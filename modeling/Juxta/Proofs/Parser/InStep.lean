import Juxta.Proofs.Parser.Logic

/-!
# Parsers in step

Two parsers are in step where they do the same: from a state they come to the same result and to the
same state, trace included.  The relation also says that the run goes forward, since that is what
carries it through the grammar: a rule uses its companions only behind a token that it has taken, so
that rules over companions that are in step for fewer tokens are in step for one token more.  This
is the one induction from which it follows that the bound in the grammar is never felt, and that the
forms of a value may be tried in another order.

## What is here

* `State.Onward` — a state further on, or as far, in the same tokens.
* `Proceeds p s Q` — a run of `p` from `s` goes forward, and what it makes satisfies `Q`.
* `InStep p q s Q` — so it does, and `q` does the same, with one rule for each way of putting
  parsers together.
* `ValueForm.parser_eq_none_iff` — a form makes nothing where it does not apply, and only there.
* `Nested.InStep` — companions that are in step up to a number of tokens; `expressionRule_inStep`,
  `statements_inStep`, … — one statement for each rule.
* `grammarOver_inStep` — the grammar over any rules at the bottom is in step with itself.
-/

set_option autoImplicit false
namespace Juxta.Parser

variable {α β : Type}

/-! ## Going forward -/

/-- The state `s'` has the same tokens as `s`, and its cursor is not before that of `s`. -/
structure State.Onward (s s' : State) : Prop where
  tokens : s'.tokens = s.tokens
  cursor_le : s.cursor ≤ s'.cursor

theorem State.length_tokens (s : State) : s.tokens.length = s.cursor + s.ahead.length := by
  rw [tokens, List.length_append, List.length_reverse, cursor]

namespace State.Onward

variable {s s' s'' : State}

theorem refl (s : State) : s.Onward s := ⟨rfl, Nat.le_refl _⟩

theorem trans (h : s.Onward s') (h' : s'.Onward s'') : s.Onward s'' :=
  ⟨h'.tokens.trans h.tokens, Nat.le_trans h.cursor_le h'.cursor_le⟩

/-- What the cursor has gained, the tokens ahead have lost. -/
theorem cursor_add (h : s.Onward s') :
    s'.cursor + s'.ahead.length = s.cursor + s.ahead.length := by
  rw [← length_tokens, ← length_tokens, h.tokens]

/-- The cursor never gets past the end. -/
theorem cursor_le_length (h : s.Onward s') : s'.cursor ≤ s.tokens.length := by
  rw [length_tokens, ← h.cursor_add]
  exact Nat.le_add_right _ _

theorem advance? {t : Token} (h : s.advance? = some (t, s')) :
    s.Onward s' ∧ s.cursor < s'.cursor := by
  rw [State.advance?] at h
  cases hs : s.ahead with
  | nil => simp [hs] at h
  | cons u ahead =>
    simp only [hs, Option.some.injEq, Prod.mk.injEq] at h
    obtain ⟨rfl, rfl⟩ := h
    exact ⟨⟨by simp [State.tokens, hs], Nat.le_succ _⟩, Nat.lt_succ_self _⟩

end State.Onward

/-! ## Runs from a state -/

section Runs

variable {p : Parser α} {f : α → Parser β} {s s' : State}

theorem bind_of_ok {a : α} (h : p s = .ok a s') : (p >>= f) s = f a s' := by
  show EStateM.bind p f s = _
  rw [EStateM.bind, h]

theorem bind_of_error {e : ParseError} (h : p s = .error e s') : (p >>= f) s = .error e s' := by
  show EStateM.bind p f s = _
  rw [EStateM.bind, h]

theorem nextIs_eq (test : Token → Bool) (s : State) :
    nextIs test s = .ok (begins test s.ahead) s := by
  rw [nextIs, State.current]
  cases s.ahead <;> rfl

/-- A loop that does not go on makes nothing, whatever its limit is. -/
theorem manyUpTo_of_begins {more : Token → Bool} {limit : Nat}
    (h : begins more s.ahead = false) : manyUpTo more p limit s = .ok [] s := by
  cases limit with
  | zero => rfl
  | succ limit =>
    rw [manyUpTo, bind_of_ok (nextIs_eq more s), h]
    rfl

end Runs

/-! ## Two runs -/

/-- A run of `p` from `s` goes forward.  It makes a result that satisfies `Q` together with the
state that it leaves, or it fails at the cursor. -/
def Proceeds (p : Parser α) (s : State) (Q : α → State → Prop) : Prop :=
  match p s with
  | .ok a s' => s.Onward s' ∧ Q a s'
  | .error e s' => s.Onward s' ∧ ∃ x, e = s'.error x

/-- From `s` the two parsers do the same, and what they do goes forward. -/
def InStep (p q : Parser α) (s : State) (Q : α → State → Prop) : Prop :=
  p s = q s ∧ Proceeds p s Q

/-- Something is made of tokens that are consumed, or nothing is made and nothing consumed. -/
def Takes (s : State) : Option α → State → Prop
  | none, s' => s' = s
  | some _, s' => s.cursor < s'.cursor

namespace InStep

variable {p q : Parser α} {s : State} {Q R : α → State → Prop}

theorem eq (h : InStep p q s Q) : p s = q s := h.1

theorem proceeds (h : InStep p q s Q) : Proceeds p s Q := h.2

/-- Only what the parsers do from this state counts. -/
theorem congr {p' q' : Parser α} (hp : p s = p' s) (hq : q s = q' s) (h : InStep p' q' s Q) :
    InStep p q s Q := by
  rw [InStep, Proceeds, hp, hq]
  exact h

theorem mono (h : InStep p q s Q) (hQ : ∀ a s', s.Onward s' → Q a s' → R a s') :
    InStep p q s R := by
  refine ⟨h.eq, ?_⟩
  have hgoes := h.proceeds
  rw [Proceeds] at hgoes ⊢
  split at hgoes
  · exact ⟨hgoes.1, hQ _ _ hgoes.1 hgoes.2⟩
  · exact hgoes

theorem forget (h : InStep p q s Q) : InStep p q s fun _ _ => True :=
  h.mono fun _ _ _ _ => trivial

/-- What comes behind a token that has been taken is behind it as well. -/
theorem behind {s₀ : State} (h : InStep p q s fun _ _ => True) (hlt : s₀.cursor < s.cursor) :
    InStep p q s fun _ s' => s₀.cursor < s'.cursor :=
  h.mono fun _ _ honward _ => Nat.lt_of_lt_of_le hlt honward.cursor_le

theorem pure {a : α} (h : Q a s) : InStep (Pure.pure a) (Pure.pure a) s Q :=
  ⟨rfl, .refl s, h⟩

theorem fail (expected : String) :
    InStep (Parser.fail expected : Parser α) (Parser.fail expected) s Q :=
  ⟨rfl, .refl s, expected, rfl⟩

theorem bind {f g : α → Parser β} {R : β → State → Prop} (h : InStep p q s Q)
    (hf : ∀ a s', s.Onward s' → Q a s' → InStep (f a) (g a) s' R) :
    InStep (p >>= f) (q >>= g) s R := by
  obtain ⟨heq, hgoes⟩ := h
  rw [Proceeds] at hgoes
  cases hp : p s with
  | error e s' =>
    rw [hp] at heq hgoes
    rw [InStep, Proceeds, bind_of_error hp, bind_of_error heq.symm]
    exact ⟨rfl, hgoes⟩
  | ok a s' =>
    rw [hp] at heq hgoes
    obtain ⟨honward, hQ⟩ := hgoes
    obtain ⟨heq', hgoes'⟩ := hf a s' honward hQ
    rw [InStep, Proceeds, bind_of_ok hp, bind_of_ok heq.symm]
    refine ⟨heq', ?_⟩
    rw [Proceeds] at hgoes'
    split at hgoes'
    · exact ⟨honward.trans hgoes'.1, hgoes'.2⟩
    · exact ⟨honward.trans hgoes'.1, hgoes'.2⟩

/-- To record a rule moves no cursor. -/
theorem traced {tracing : Bool} {rule : Rule} {P : Nat → Prop}
    (h : ∀ s', s.Onward s' → s'.cursor = s.cursor → InStep p q s' fun _ t => P t.cursor) :
    InStep (Parser.traced tracing rule p) (Parser.traced tracing rule q) s
      fun _ t => P t.cursor := by
  cases tracing with
  | false => exact h s (.refl s) rfl
  | true =>
    obtain ⟨heq, hgoes⟩ := h (s.enter rule) ⟨rfl, Nat.le_refl _⟩ rfl
    rw [Proceeds] at hgoes
    rw [InStep, Proceeds, Parser.traced, Parser.traced, if_pos rfl, if_pos rfl, ← heq]
    refine ⟨rfl, ?_⟩
    cases hp : p (s.enter rule) with
    | ok a t =>
      rw [hp] at hgoes
      exact ⟨⟨hgoes.1.tokens, hgoes.1.cursor_le⟩, hgoes.2⟩
    | error e t =>
      rw [hp] at hgoes
      exact ⟨⟨hgoes.1.tokens, hgoes.1.cursor_le⟩, hgoes.2⟩

/-! ### One token -/

theorem nextIs (test : Token → Bool) :
    InStep (Parser.nextIs test) (Parser.nextIs test) s fun b s' =>
      b = begins test s.ahead ∧ s' = s := by
  rw [InStep, Proceeds, nextIs_eq]
  exact ⟨rfl, .refl s, rfl, rfl⟩

theorem takeIf (test : Token → Bool) :
    InStep (Parser.takeIf test) (Parser.takeIf test) s (Takes s) := by
  refine ⟨rfl, ?_⟩
  rw [Proceeds, Parser.takeIf]
  cases hs : s.advance? with
  | none => exact ⟨.refl s, rfl⟩
  | some found =>
    obtain ⟨t, s'⟩ := found
    by_cases ht : test t = true
    · simp only [ht, if_true]
      exact State.Onward.advance? hs
    · simp only [ht]
      exact ⟨.refl s, rfl⟩

theorem expect (test : Token → Bool) (expected : String) :
    InStep (Parser.expect test expected) (Parser.expect test expected) s
      fun _ s' => s.cursor < s'.cursor := by
  refine bind (takeIf test) ?_
  rintro (_ | t) s' _ h
  · exact fail expected
  · exact pure h

theorem skipText (text : String) :
    InStep (Parser.skipText text) (Parser.skipText text) s fun _ _ => True :=
  bind (takeIf _) fun _ _ _ _ => pure trivial

theorem skipNewlines : InStep Parser.skipNewlines Parser.skipNewlines s fun _ _ => True := by
  refine ⟨rfl, ⟨?_, ?_⟩, trivial⟩
  · have hsplit := List.prefix_iff_eq_append.1 (List.takeWhile_prefix (l := s.ahead)
      fun t : Token => decide (t.kind = .newline))
    simp only [State.tokens, List.reverse_append, List.reverse_reverse, List.append_assoc, hsplit]
  · simp only [State.cursor, List.length_append]
    exact Nat.le_add_left _ _

/-! ### Repetition -/

/-- **A loop never runs into its limit**, as long as its items consume something: two loops are in
step, whatever their limits are, if these are not below the number of tokens ahead. -/
theorem manyUpTo {more : Token → Bool} {item item' : Parser α} {limit limit' : Nat}
    (hlimit : s.ahead.length ≤ limit) (hlimit' : s.ahead.length ≤ limit')
    (hitem : ∀ s', s.Onward s' → begins more s'.ahead = true →
      InStep item item' s' fun _ t => s'.cursor < t.cursor) :
    InStep (Parser.manyUpTo more item limit) (Parser.manyUpTo more item' limit') s
      fun _ _ => True := by
  induction limit generalizing s limit' with
  | zero =>
    have hnil : s.ahead = [] := List.length_eq_zero_iff.1 (Nat.le_zero.1 hlimit)
    exact congr rfl (manyUpTo_of_begins (by rw [hnil]; rfl)) (pure trivial)
  | succ limit ih =>
    cases limit' with
    | zero =>
      have hnil : s.ahead = [] := List.length_eq_zero_iff.1 (Nat.le_zero.1 hlimit')
      exact congr (manyUpTo_of_begins (by rw [hnil]; rfl)) rfl (pure trivial)
    | succ limit' =>
      refine bind (nextIs more) ?_
      rintro b _ - ⟨rfl, rfl⟩
      split
      · next hmore =>
        refine bind (hitem _ (.refl _) hmore) ?_
        intro a s₁ h₁ hlt
        have hadd := h₁.cursor_add
        refine bind (ih (by omega) (by omega) fun s₂ h₂ => hitem s₂ (h₁.trans h₂)) ?_
        exact fun as s₂ _ _ => pure trivial
      · exact pure trivial

theorem many {more : Token → Bool} {item item' : Parser α}
    (hitem : ∀ s', s.Onward s' → begins more s'.ahead = true →
      InStep item item' s' fun _ t => s'.cursor < t.cursor) :
    InStep (Parser.many more item) (Parser.many more item') s fun _ _ => True :=
  manyUpTo (Nat.le_refl _) (Nat.le_refl _) hitem

end InStep

/-! ## Where a form applies -/

section Forms

variable {nested : Nested} {s s' : State}

theorem takeIf_of_begins {test : Token → Bool} (h : begins test s.ahead = true) :
    ∃ t s', takeIf test s = .ok (some t) s' := by
  obtain ⟨t, ahead, hs, ht⟩ := exists_cons_of_begins h
  rw [takeIf, State.advance?, hs]
  simp only [ht, if_true]
  exact ⟨t, _, rfl⟩

theorem takeIf_of_not_begins {test : Token → Bool} (h : begins test s.ahead = false) :
    takeIf test s = .ok none s := by
  rw [takeIf, State.advance?]
  cases hs : s.ahead with
  | nil => rfl
  | cons t ahead =>
    rw [hs, begins_cons] at h
    simp only [h, Bool.false_eq_true, if_false]

/-- The parser makes something or fails. -/
def Commits (p : Parser (Option α)) : Prop :=
  ∀ s s', p s ≠ .ok none s'

theorem Commits.some (a : α) : Commits (pure (some a)) := by
  rintro s s' ⟨⟩

theorem Commits.fail (expected : String) : Commits (fail expected : Parser (Option α)) := by
  rintro s s' ⟨⟩

theorem Commits.bind {p : Parser β} {f : β → Parser (Option α)} (h : ∀ b, Commits (f b)) :
    Commits (p >>= f) := by
  intro s s' hnone
  cases hp : p s with
  | ok b s₁ =>
    rw [bind_of_ok hp] at hnone
    exact h b s₁ s' hnone
  | error e s₁ =>
    rw [bind_of_error hp] at hnone
    cases hnone

/-- A parser that is told by its first token, and commits itself once it has taken that. -/
theorem takeIf_bind_eq_none_iff {test : Token → Bool} {next : Token → Parser (Option α)}
    (h : ∀ t, Commits (next t)) :
    (do match ← takeIf test with
      | none => pure none
      | some t => next t : Parser (Option α)) s = .ok none s' ↔
      begins test s.ahead = false ∧ s' = s := by
  cases hb : begins test s.ahead with
  | false =>
    rw [bind_of_ok (takeIf_of_not_begins hb)]
    constructor
    · rintro ⟨⟩
      exact ⟨rfl, rfl⟩
    · rintro ⟨-, rfl⟩
      rfl
  | true =>
    obtain ⟨t, s₁, ht⟩ := takeIf_of_begins hb
    rw [bind_of_ok ht]
    exact iff_of_false (h t s₁ s') (by simp)

theorem literal_eq_none_iff {kind : Token.Kind} {toLeaf : Token → Node} :
    literal kind toLeaf s = .ok none s' ↔ begins (Token.hasKind kind) s.ahead = false ∧ s' = s := by
  have h : literal kind toLeaf = (do
      match ← takeIf (Token.hasKind kind) with
      | none => pure none
      | some t => pure (some (toLeaf t))) := by
    refine congrArg (takeIf (Token.hasKind kind) >>= ·) (funext fun o => ?_)
    cases o <;> rfl
  rw [h]
  exact takeIf_bind_eq_none_iff fun t => .some (toLeaf t)

/-- **A form makes nothing exactly where it does not apply**, and then it consumes nothing. -/
theorem ValueForm.parser_eq_none_iff {form : ValueForm} :
    form.parser nested s = .ok none s' ↔ begins form.leads s.ahead = false ∧ s' = s := by
  have hparens (t : Token) : Commits (do
      let inner ← nested.expression
      let _ ← expectText ")"
      pure (some (nodeAt .parenthesis t [inner]))) :=
    .bind fun inner => .bind fun _ => .some _
  cases form with
  | parens => exact takeIf_bind_eq_none_iff hparens
  | block =>
    exact takeIf_bind_eq_none_iff fun t =>
      .bind fun _ => .bind fun body => .bind fun _ => .bind fun _ => .some _
  | identifier | float | string => exact literal_eq_none_iff
  | integer =>
    rw [parser, Parser.integer, bind_of_ok (nextIs_eq _ s)]
    split
    · next hlarge =>
      obtain ⟨t, ahead, hs, ht⟩ := exists_cons_of_begins hlarge
      have hleads : begins integer.leads s.ahead = true := by
        rw [hs]
        simp only [Bool.and_eq_true] at ht
        exact ht.1
      exact iff_of_false (Commits.fail _ s s') (by simp [hleads])
    · exact literal_eq_none_iff
  | quoted => exact takeIf_bind_eq_none_iff fun t => .bind fun inner => .some _
  | unquote =>
    refine takeIf_bind_eq_none_iff fun t => .bind fun o => ?_
    cases o with
    | none => exact .fail _
    | some inner => exact .some _

/-- Some forms in turn are the first of them that applies. -/
theorem firstOf_eq (forms : List ValueForm) :
    firstOf (forms.map (·.parser nested)) s =
      match nextForm forms s.ahead with
      | none => .ok none s
      | some form => form.parser nested s := by
  induction forms with
  | nil => cases s.ahead <;> rfl
  | cons form forms ih =>
    have hnext : nextForm (form :: forms) s.ahead =
        if begins form.leads s.ahead = true then some form else nextForm forms s.ahead := by
      cases s.ahead with
      | nil => rfl
      | cons t ahead => cases ht : form.leads t <;> simp [formAt, ht]
    rw [List.map_cons, firstOf, hnext]
    cases hb : begins form.leads s.ahead with
    | false =>
      rw [bind_of_ok (ValueForm.parser_eq_none_iff.2 ⟨hb, rfl⟩)]
      exact ih
    | true =>
      rw [if_pos rfl]
      show _ = form.parser nested s
      cases hp : form.parser nested s with
      | error e s₁ => exact bind_of_error hp
      | ok o s₁ =>
        rw [bind_of_ok hp]
        cases o with
        | none => exact absurd (ValueForm.parser_eq_none_iff.1 hp).1 (by simp [hb])
        | some n => rfl

end Forms

/-! ## The rules -/

/-- The state stands in these tokens, and fewer than `bound` of them are ahead. -/
structure State.Within (ts : List Token) (bound : Nat) (s : State) : Prop where
  tokens : s.tokens = ts
  length_lt : s.ahead.length < bound

namespace State.Within

variable {ts : List Token} {bound : Nat} {s s' : State}

theorem self (s : State) : s.Within s.tokens (s.ahead.length + 1) :=
  ⟨rfl, Nat.lt_succ_self _⟩

theorem succ (h : s.Within ts bound) : s.Within ts (bound + 1) :=
  ⟨h.tokens, Nat.lt_succ_of_lt h.length_lt⟩

theorem onward (h : s.Within ts bound) (h' : s.Onward s') : s'.Within ts bound := by
  have hadd := h'.cursor_add
  have hle := h'.cursor_le
  have hlt := h.length_lt
  exact ⟨h'.tokens.trans h.tokens, by omega⟩

/-- Behind a token that has been taken there is one less. -/
theorem behind (h : s.Within ts (bound + 1)) (h' : s.Onward s') (hlt : s.cursor < s'.cursor) :
    s'.Within ts bound := by
  have hadd := h'.cursor_add
  have hbound := h.length_lt
  exact ⟨h'.tokens.trans h.tokens, by omega⟩

end State.Within

/-- With both settings every one of these tokens leads a value of the same form, if of any. -/
structure Settings.Interchangeable (settings settings' : Settings) (ts : List Token) : Prop where
  tracing : settings.tracing = settings'.tracing
  formAt : ∀ t ∈ ts, formAt settings.forms t = formAt settings'.forms t

theorem Settings.Interchangeable.refl (settings : Settings) (ts : List Token) :
    settings.Interchangeable settings ts :=
  ⟨rfl, fun _ _ => rfl⟩

/-- The companion rules are in step wherever fewer than `bound` tokens are ahead. -/
structure Nested.InStep (ts : List Token) (bound : Nat) (nested nested' : Nested) : Prop where
  expression : ∀ s : State, s.Within ts bound →
    Parser.InStep nested.expression nested'.expression s fun _ s' => s.cursor < s'.cursor
  propertyOrValue : ∀ s : State, s.Within ts bound →
    Parser.InStep nested.propertyOrValue nested'.propertyOrValue s fun _ s' => s.cursor < s'.cursor

/-- One statement, with the semicolon and the line ends behind it. -/
def statement (nested : Nested) : Parser Node := do
  let node ← nested.expression
  skipText ";"
  skipNewlines
  pure node

section Rules

variable {ts : List Token} {bound : Nat} {nested nested' : Nested} {s : State}
  {settings settings' : Settings}

/-! ### Statements -/

theorem statement_inStep (hn : nested.InStep ts bound nested') (hs : s.Within ts bound) :
    InStep (statement nested) (statement nested') s fun _ s' => s.cursor < s'.cursor := by
  refine .bind (hn.expression s hs) fun node s₁ _ hlt => ?_
  refine .behind (.bind (.skipText ";") fun _ s₂ _ _ => ?_) hlt
  exact .bind .skipNewlines fun _ _ _ _ => .pure trivial

theorem statements_inStep (hn : nested.InStep ts bound nested') (hs : s.Within ts bound) :
    InStep (statements nested) (statements nested') s fun _ _ => True := by
  refine .bind .skipNewlines fun _ s₁ h₁ _ => ?_
  exact .many fun s₂ h₂ _ => statement_inStep hn (hs.onward (h₁.trans h₂))

/-! ### Values -/

/-- The common shape of the forms that are told by their first token. -/
theorem takes_of_takeIf {test : Token → Bool} {next next' : Token → Parser (Option Node)}
    (h : ∀ t s', s.Onward s' → s.cursor < s'.cursor →
      InStep (next t) (next' t) s' fun o _ => o.isSome = true) :
    InStep (do
        match ← takeIf test with
        | none => pure none
        | some t => next t)
      (do
        match ← takeIf test with
        | none => pure none
        | some t => next' t) s (Takes s) := by
  refine .bind (.takeIf test) ?_
  rintro (_ | t) s' h' hs'
  · exact .pure hs'
  · refine (h t s' h' hs').mono ?_
    rintro (_ | n) s'' h'' hsome
    · cases hsome
    · exact Nat.lt_of_lt_of_le hs' h''.cursor_le

theorem parens_inStep (hn : nested.InStep ts bound nested') (hs : s.Within ts (bound + 1)) :
    InStep (parens nested) (parens nested') s (Takes s) := by
  refine takes_of_takeIf fun t s₁ h₁ hlt => ?_
  refine .bind (hn.expression s₁ (hs.behind h₁ hlt)) fun inner s₂ _ _ => ?_
  exact .bind (.expect _ _) fun _ _ _ _ => .pure rfl

theorem block_inStep (hn : nested.InStep ts bound nested') (hs : s.Within ts (bound + 1)) :
    InStep (block nested) (block nested') s (Takes s) := by
  refine takes_of_takeIf fun t s₁ h₁ hlt => ?_
  refine .bind .skipNewlines fun _ s₂ h₂ _ => ?_
  have hs₂ := (hs.behind h₁ hlt).onward h₂
  refine .bind (statements_inStep hn hs₂) fun body s₃ _ _ => ?_
  exact .bind .skipNewlines fun _ _ _ _ => .bind (.expect _ _) fun _ _ _ _ => .pure rfl

theorem literal_inStep (kind : Token.Kind) (toLeaf : Token → Node) :
    InStep (literal kind toLeaf) (literal kind toLeaf) s (Takes s) := by
  refine .bind (.takeIf _) ?_
  rintro (_ | t) s' _ hs'
  · exact .pure hs'
  · exact .pure hs'

theorem integer_inStep : InStep integer integer s (Takes s) := by
  refine .bind (.nextIs _) ?_
  rintro b _ - ⟨-, rfl⟩
  split
  · exact .fail _
  · exact literal_inStep _ _

theorem quoted_inStep (hn : nested.InStep ts bound nested') (hs : s.Within ts (bound + 1)) :
    InStep (quoted nested) (quoted nested') s (Takes s) := by
  refine takes_of_takeIf fun t s₁ h₁ hlt => ?_
  exact .bind (hn.propertyOrValue s₁ (hs.behind h₁ hlt)) fun inner _ _ _ => .pure rfl

theorem unquote_inStep (hn : nested.InStep ts bound nested') (hs : s.Within ts (bound + 1)) :
    InStep (unquote nested) (unquote nested') s (Takes s) := by
  refine takes_of_takeIf fun t s₁ h₁ hlt => ?_
  refine .bind (parens_inStep hn (hs.onward h₁)) ?_
  rintro (_ | inner) s₂ _ _
  · exact .fail _
  · exact .pure rfl

/-- Every form makes something of tokens that it consumes, or nothing. -/
theorem ValueForm.parser_inStep (hn : nested.InStep ts bound nested')
    (hs : s.Within ts (bound + 1)) (form : ValueForm) :
    InStep (form.parser nested) (form.parser nested') s (Takes s) := by
  cases form with
  | parens => exact parens_inStep hn hs
  | block => exact block_inStep hn hs
  | identifier | float | string => exact literal_inStep _ _
  | integer => exact integer_inStep
  | quoted => exact quoted_inStep hn hs
  | unquote => exact unquote_inStep hn hs

theorem firstOf_inStep (hset : settings.Interchangeable settings' ts)
    (hn : nested.InStep ts bound nested') (hs : s.Within ts (bound + 1)) :
    InStep (firstOf (settings.forms.map (·.parser nested)))
      (firstOf (settings'.forms.map (·.parser nested'))) s (Takes s) := by
  have hnext : nextForm settings'.forms s.ahead = nextForm settings.forms s.ahead := by
    cases hahead : s.ahead with
    | nil => rfl
    | cons t ahead =>
      refine (hset.formAt t ?_).symm
      rw [← hs.tokens, State.tokens, hahead]
      exact List.mem_append_right _ List.mem_cons_self
  have hfirst : firstOf (settings.forms.map (·.parser nested)) s = _ := firstOf_eq settings.forms
  have hfirst' : firstOf (settings'.forms.map (·.parser nested')) s = _ :=
    firstOf_eq settings'.forms
  rw [hnext] at hfirst'
  cases hform : nextForm settings.forms s.ahead with
  | none =>
    rw [hform] at hfirst hfirst'
    exact .congr hfirst hfirst' (.pure (a := none) rfl)
  | some form =>
    rw [hform] at hfirst hfirst'
    exact .congr hfirst hfirst' (form.parser_inStep hn hs)

section Interchangeable

variable (hset : settings.Interchangeable settings' ts) (hn : nested.InStep ts bound nested')
include hset hn

theorem value_inStep (hs : s.Within ts (bound + 1)) :
    InStep (value settings nested) (value settings' nested') s
      fun _ s' => s.cursor < s'.cursor := by
  rw [value, value, hset.tracing]
  refine .traced fun s₁ h₁ hcursor => ?_
  refine .bind (firstOf_inStep hset hn (hs.onward h₁)) ?_
  rintro (_ | n) s₂ _ h₂
  · exact .fail _
  · exact .pure (hcursor ▸ h₂)

/-! ### Property accesses and chains -/

omit hset hn in
theorem propertyName_inStep :
    InStep propertyName propertyName s fun _ s' => s.cursor < s'.cursor :=
  .bind (.expect _ _) fun _ _ _ hlt => .behind (.forget (.expect _ _)) hlt

theorem propertyOrValue_inStep (hs : s.Within ts (bound + 1)) :
    InStep (propertyOrValue settings nested) (propertyOrValue settings' nested') s
      fun _ s' => s.cursor < s'.cursor := by
  rw [propertyOrValue, propertyOrValue, hset.tracing]
  refine .traced fun s₁ h₁ hcursor => ?_
  refine .bind (value_inStep hset hn (hs.onward h₁)) fun base s₂ _ hlt => ?_
  refine .behind (.bind (.many fun _ _ _ => propertyName_inStep) fun names s₃ _ _ => ?_)
    (hcursor ▸ hlt)
  exact .pure trivial

theorem leftOperand_inStep (hs : s.Within ts (bound + 1)) :
    InStep (leftOperand settings nested) (leftOperand settings' nested') s
      fun _ s' => s.cursor < s'.cursor := by
  refine .bind (.expect _ _) fun op s₁ h₁ hlt => ?_
  refine .behind (.bind (propertyOrValue_inStep hset hn (hs.onward h₁)) fun rhs s₂ _ _ => ?_) hlt
  exact .pure trivial

theorem leftBinary_inStep (hs : s.Within ts (bound + 1)) (lhs : Node) :
    InStep (leftBinary settings nested lhs) (leftBinary settings' nested' lhs) s
      fun _ _ => True := by
  rw [leftBinary, leftBinary, hset.tracing]
  refine .traced (P := fun _ => True) fun s₁ h₁ _ => ?_
  refine .bind (.many fun s₂ h₂ _ => ?_) fun operands s₃ _ _ => .pure trivial
  exact leftOperand_inStep hset hn (hs.onward (h₁.trans h₂))

theorem chain_inStep (hs : s.Within ts (bound + 1)) :
    InStep (chain settings nested) (chain settings' nested') s
      fun _ s' => s.cursor < s'.cursor := by
  refine .bind (propertyOrValue_inStep hset hn hs) fun first s₁ h₁ hlt => ?_
  exact .behind (leftBinary_inStep hset hn (hs.onward h₁) first) hlt

/-! ### Calls and expressions -/

theorem argument_inStep (hs : s.Within ts (bound + 1)) :
    InStep (argument settings nested) (argument settings' nested') s
      fun _ s' => s.cursor < s'.cursor := by
  refine .bind (chain_inStep hset hn hs) fun arg s₁ _ hlt => ?_
  exact .behind (.bind (.skipText ",") fun _ _ _ _ => .pure trivial) hlt

theorem intermediate_inStep (hs : s.Within ts (bound + 1)) :
    InStep (intermediate settings nested) (intermediate settings' nested') s
      fun _ s' => s.cursor < s'.cursor := by
  rw [intermediate, intermediate, hset.tracing]
  refine .traced fun s₁ h₁ hcursor => ?_
  refine .bind (propertyOrValue_inStep hset hn (hs.onward h₁)) fun first s₂ h₂ hlt => ?_
  have hs₂ := hs.onward (h₁.trans h₂)
  refine .behind (.bind (.nextIs _) ?_) (hcursor ▸ hlt)
  rintro b _ - ⟨-, rfl⟩
  split
  · exact leftBinary_inStep hset hn hs₂ first
  · refine .bind (.many fun s₃ h₃ _ => ?_) fun args _ _ _ => .pure trivial
    exact argument_inStep hset hn (hs₂.onward h₃)

theorem expressionRule_inStep (hs : s.Within ts (bound + 1)) :
    InStep (expressionRule settings nested) (expressionRule settings' nested') s
      fun _ s' => s.cursor < s'.cursor := by
  rw [expressionRule, expressionRule, hset.tracing]
  refine .traced fun s₁ h₁ hcursor => ?_
  have hs₁ := hs.onward h₁
  refine .bind (intermediate_inStep hset hn hs₁) fun lhs s₂ h₂ hlt => ?_
  refine .behind (.bind (.takeIf _) ?_) (hcursor ▸ hlt)
  rintro (_ | op) s₃ h₃ _
  · exact .pure trivial
  · have hs₃ := (hs₁.behind h₂ hlt).onward h₃
    exact .bind (hn.expression s₃ hs₃) fun rhs _ _ _ => .pure trivial

end Interchangeable

/-! ### Tying the knot -/

/-- The rules that use some rules further ahead. -/
def Nested.next (settings : Settings) (nested : Nested) : Nested where
  expression := expressionRule settings nested
  propertyOrValue := Parser.propertyOrValue settings nested

/-- Rules over rules that are in step are so for one token more. -/
theorem Nested.InStep.next (hset : settings.Interchangeable settings' ts)
    (hn : nested.InStep ts bound nested') :
    (nested.next settings).InStep ts (bound + 1) (nested'.next settings') :=
  ⟨fun _ hs => expressionRule_inStep hset hn hs, fun _ hs => propertyOrValue_inStep hset hn hs⟩

/-- The grammar over any rules at the bottom. -/
def grammarOver (settings : Settings) (bottom : Nested) : (bound : Nat) → Nested
  | 0 => bottom
  | bound + 1 => (grammarOver settings bottom bound).next settings

theorem grammar_eq_grammarOver (settings : Settings) (bound : Nat) :
    grammar settings bound = grammarOver settings ⟨fail "value", fail "value"⟩ bound := by
  induction bound with
  | zero => rfl
  | succ bound ih => rw [grammar, ih]; rfl

/-- **The rules at the bottom are never reached**: whatever they are, and however far down they are,
the grammars over them are in step for fewer tokens than that. -/
theorem grammarOver_inStep (hset : settings.Interchangeable settings' ts) (bottom bottom' : Nested)
    {n bound' : Nat} (h : n ≤ bound) (h' : n ≤ bound') :
    (grammarOver settings bottom bound).InStep ts n (grammarOver settings' bottom' bound') := by
  induction n generalizing bound bound' with
  | zero =>
    exact ⟨fun s hs => absurd hs.length_lt (Nat.not_lt_zero _),
      fun s hs => absurd hs.length_lt (Nat.not_lt_zero _)⟩
  | succ n ih =>
    obtain ⟨bound, rfl⟩ := Nat.exists_eq_add_one_of_ne_zero (Nat.ne_zero_of_lt h)
    obtain ⟨bound', rfl⟩ := Nat.exists_eq_add_one_of_ne_zero (Nat.ne_zero_of_lt h')
    exact (ih (Nat.le_of_succ_le_succ h) (Nat.le_of_succ_le_succ h')).next hset

/-- The grammar without a bound. -/
def rules (settings : Settings) : Nested where
  expression := Parser.expression settings
  propertyOrValue := inGrammar settings (·.propertyOrValue)

/-- The grammar without a bound is the one with any bound that exceeds the number of tokens. -/
theorem rules_inStep (hset : settings.Interchangeable settings' ts) (bottom : Nested) {n : Nat}
    (h : n ≤ bound) : (rules settings).InStep ts n (grammarOver settings' bottom bound) := by
  have hgrammar (s : State) (hs : s.Within ts n) :
      (grammar settings (s.ahead.length + 1)).InStep ts (s.ahead.length + 1)
        (grammarOver settings' bottom bound) := by
    rw [grammar_eq_grammarOver]
    exact grammarOver_inStep hset _ _ (Nat.le_refl _) (Nat.le_trans hs.length_lt h)
  exact ⟨fun s hs => .congr rfl rfl
      ((hgrammar s hs).expression s ⟨hs.tokens, Nat.lt_succ_self _⟩),
    fun s hs => .congr rfl rfl
      ((hgrammar s hs).propertyOrValue s ⟨hs.tokens, Nat.lt_succ_self _⟩)⟩

/-- A rule that keeps companions in step is in step in the two grammars. -/
theorem inGrammar_inStep {α : Type} {rule rule' : Nested → Parser α} {Q : α → State → Prop}
    (hset : settings.Interchangeable settings' s.tokens)
    (h : ∀ nested nested', nested.InStep s.tokens (s.ahead.length + 1) nested' →
      InStep (rule nested) (rule' nested') s Q) :
    InStep (inGrammar settings rule) (inGrammar settings' rule') s Q := by
  refine .congr rfl rfl (h _ _ ?_)
  rw [grammar_eq_grammarOver, grammar_eq_grammarOver]
  exact grammarOver_inStep hset _ _ (Nat.le_refl _) (Nat.le_refl _)

/-- Run in the grammar, a rule that keeps companions in step has companions without a bound. -/
theorem inGrammar_inStep_rules {α : Type} {rule : Nested → Parser α} {Q : α → State → Prop}
    (h : ∀ nested nested', nested.InStep s.tokens (s.ahead.length + 1) nested' →
      InStep (rule nested) (rule nested') s Q) :
    InStep (rule (rules settings)) (inGrammar settings rule) s Q := by
  refine .congr rfl rfl (h _ _ ?_)
  rw [grammar_eq_grammarOver]
  exact rules_inStep (.refl settings _) _ (Nat.le_refl _)

end Rules
end Juxta.Parser
