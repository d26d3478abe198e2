import Juxta.Parser.Source
import Juxta.Proofs.Parser.Logic

/-!
# The parser follows the grammar

Every rule of the parser makes what the relation `Reads` says, and fails where the relation `Stuck`
says.  Since the two relations exclude each other and each of them is deterministic, the parser
accepts exactly what the grammar reads.

The rules call each other through the bound that ties their knot.  A rule needs its two companions
only for fewer tokens than it has itself, so that the bound is an induction on the number of tokens.

## What is here

* `Nested.Agrees` — the two companion rules follow the grammar as long as few enough tokens are
  ahead; `grammar_agrees` — those of `grammar bound` do below `bound`.
* `statements_meets`, `expressionRule_meets`, … — one statement for each rule.
* `Rejects` — why and where a token list is no program.
* `reads_of_parseTokens`, `rejects_of_parseTokens`, `parseTokens_of_reads`,
  `parseTokens_of_rejects` — what the parser makes of a program, in both directions.
-/

set_option autoImplicit false
namespace Juxta.Parser

/-- A parser of one tree follows the grammar from a state. -/
def Follows (forms : List ValueForm) (phrase : Phrase) (p : Parser Node) (s : State) : Prop :=
  Meets p s (fun n rest => Reads forms phrase s.ahead [n] rest) (Stuck forms phrase s.ahead)

/-- The companion rules follow the grammar wherever fewer than `bound` tokens are ahead. -/
structure Nested.Agrees (forms : List ValueForm) (bound : Nat) (nested : Nested) : Prop where
  expression : ∀ s : State, s.ahead.length < bound →
    Follows forms .expression nested.expression s
  propertyOrValue : ∀ s : State, s.ahead.length < bound →
    Follows forms .propertyOrValue nested.propertyOrValue s

section Rules

variable {forms : List ValueForm} {bound : Nat} {nested : Nested} {s : State}
  {settings : Settings}

/-! ## Statements -/

/-- Line ends before statements are skipped. -/
theorem Reads.of_dropWhile {input rest : List Token} {ns : List Node}
    (h : Reads forms .statements (input.dropWhile (Token.hasKind .newline)) ns rest) :
    Reads forms .statements input ns rest := by
  induction input with
  | nil => exact h
  | cons t ts ih =>
    rw [List.dropWhile_cons] at h
    split at h
    · next ht => exact .newline (by simpa using ht) (ih h)
    · exact h

theorem Stuck.of_dropWhile {input rest : List Token} {x : String}
    (h : Stuck forms .statements (input.dropWhile (Token.hasKind .newline)) x rest) :
    Stuck forms .statements input x rest := by
  induction input with
  | nil => exact h
  | cons t ts ih =>
    rw [List.dropWhile_cons] at h
    split at h
    · next ht => exact .newline (by simpa using ht) (ih h)
    · exact h

theorem begins_dropWhile (p : Token → Bool) (input : List Token) :
    begins p (input.dropWhile p) = false := by
  induction input with
  | nil => rfl
  | cons t ts ih =>
    rw [List.dropWhile_cons]
    split
    · exact ih
    · next ht => simpa using ht

/-- Statements end in front of something that is no line end. -/
theorem Reads.begins_newline {input rest : List Token} {ns : List Node} {phrase : Phrase}
    (h : Reads forms phrase input ns rest) (hp : phrase = .statements ∨ phrase = .afterStatement) :
    begins (Token.hasKind .newline) rest = false := by
  induction h with
  | noStatement hline _ => exact hline
  | newline _ _ ih => exact ih (.inl rfl)
  | statement _ _ _ _ _ ih => exact ih (.inr rfl)
  | semicolon _ _ ih => exact ih (.inl rfl)
  | noSemicolon _ _ ih => exact ih (.inl rfl)
  | _ => rcases hp with hp | hp <;> cases hp

theorem statements_meets (hn : nested.Agrees forms bound) (hs : s.ahead.length < bound) :
    Meets (statements nested) s (Reads forms .statements s.ahead)
      (Stuck forms .statements s.ahead) := by
  refine .bind (.skipNewlines (Q := fun _ rest =>
    rest = s.ahead.dropWhile (Token.hasKind .newline)) rfl) ?_
  intro _ s₁ hs₁
  have hlen : s₁.ahead.length < bound := by
    have := (List.dropWhile_suffix (l := s.ahead) (Token.hasKind .newline)).length_le
    rw [hs₁]
    omega
  have hline : begins (Token.hasKind .newline) s₁.ahead = false := by
    rw [hs₁]
    exact begins_dropWhile _ _
  -- The loop always stands behind the line ends, so what it comes to may assume that.
  refine .mono (.many
    (L := fun input ns rest => begins (Token.hasKind .newline) input = false →
      Reads forms .statements input ns rest)
    (E := fun input x rest => begins (Token.hasKind .newline) input = false →
      Stuck forms .statements input x rest) ?_ ?_) ?_ ?_
  · intro input hend hline
    exact .noStatement hline hend
  · intro s₂ hs₂ hmore
    refine .bind (.mono (hn.expression s₂ (by omega))
      (R := fun n rest => Reads forms .expression s₂.ahead [n] rest) (fun _ _ h => h) ?_) ?_
    · intro x rest h hline
      exact .firstStatement hline hmore h
    intro n s₃ hread
    have hlt := hread.length_lt rfl
    -- What comes to pass behind the semicolon and the line ends also does behind the expression.
    refine .bind (.skipText (Q := fun _ mid => mid.length ≤ s₃.ahead.length ∧
      (∀ ns rest, Reads forms .statements mid ns rest →
        Reads forms .afterStatement s₃.ahead ns rest) ∧
      (∀ x rest, Stuck forms .statements mid x rest →
        Stuck forms .afterStatement s₃.ahead x rest)) ?_ ?_) ?_
    · intro hsemi
      exact ⟨Nat.le_refl _, fun _ _ h => .noSemicolon hsemi h, fun _ _ h => .noSemicolon hsemi h⟩
    · intro t ts hs₃ ht
      rw [hs₃]
      exact ⟨Nat.le_succ _, fun _ _ h => .semicolon ht h, fun _ _ h => .semicolon ht h⟩
    rintro _ s₄ ⟨hle, hreads, hstuck⟩
    refine .bind (.skipNewlines (Q := fun _ rest =>
      rest = s₄.ahead.dropWhile (Token.hasKind .newline)) rfl) ?_
    intro _ s₅ hs₅
    have hle' := (List.dropWhile_suffix (l := s₄.ahead) (Token.hasKind .newline)).length_le
    have hline₅ : begins (Token.hasKind .newline) s₅.ahead = false := by
      rw [hs₅]
      exact begins_dropWhile _ _
    refine .pure ⟨by rw [hs₅]; omega, ?_, ?_⟩
    · intro ns rest h hline
      exact .statement hline hmore hread (hreads _ _ (.of_dropWhile (hs₅ ▸ h hline₅)))
    · intro x rest h hline
      exact .statement hline hmore hread (hstuck _ _ (.of_dropWhile (hs₅ ▸ h hline₅)))
  · intro ns rest h
    exact .of_dropWhile (hs₁ ▸ h hline)
  · intro x rest h
    exact .of_dropWhile (hs₁ ▸ h hline)

/-! ## Values -/

/-- What a form of a value comes to: nothing where the form does not apply, and otherwise what the
grammar says, provided that no other form takes precedence. -/
def FormMeets (forms : List ValueForm) (form : ValueForm) (p : Parser (Option Node)) (s : State) :
    Prop :=
  Meets p s
    (fun o rest => match o with
      | none => begins form.leads s.ahead = false ∧ rest = s.ahead
      | some n => begins form.leads s.ahead = true ∧
        (nextForm forms s.ahead = some form → Reads forms .value s.ahead [n] rest))
    (fun x rest => begins form.leads s.ahead = true ∧
      (nextForm forms s.ahead = some form → Stuck forms .value s.ahead x rest))

/-- The common shape of the forms that are told by their first token. -/
theorem formMeets_of_takeIf {form : ValueForm} {next : Token → Parser (Option Node)}
    (h : ∀ t ts s', s.ahead = t :: ts → form.leads t = true → s'.ahead = ts →
      Meets (next t) s'
        (fun o rest => ∃ n, o = some n ∧
          (formAt forms t = some form → Reads forms .value (t :: ts) [n] rest))
        (fun x rest => formAt forms t = some form → Stuck forms .value (t :: ts) x rest)) :
    FormMeets forms form (do
      match ← takeIf form.leads with
      | none => pure none
      | some t => next t) s := by
  refine .bind (.takeIf (Q := fun o rest => match o with
    | none => begins form.leads s.ahead = false ∧ rest = s.ahead
    | some t => form.leads t = true ∧ s.ahead = t :: rest) ?_ ?_) ?_
  · intro hnone
    exact ⟨hnone, rfl⟩
  · intro t ts hs ht
    exact ⟨ht, hs⟩
  rintro (_ | t) s' hs'
  · exact .pure hs'
  · obtain ⟨ht, hs⟩ := hs'
    have hb : begins form.leads s.ahead = true := by rw [hs]; exact ht
    refine .mono (h t s'.ahead s' hs ht rfl) ?_ ?_
    · rintro o rest ⟨n, rfl, hn⟩
      rw [hs]
      exact ⟨ht, hn⟩
    · intro x rest hx
      rw [hs]
      exact ⟨ht, hx⟩

/-- The parser of parentheses makes nothing where there are none. -/
theorem parens_meets (hn : nested.Agrees forms bound) (hs : s.ahead.length ≤ bound) :
    Meets (parens nested) s
      (fun o rest => match o with
        | none => begins (Token.hasText "(") s.ahead = false ∧ rest = s.ahead
        | some n => begins (Token.hasText "(") s.ahead = true ∧
          Reads forms .parens s.ahead [n] rest)
      (fun x rest => begins (Token.hasText "(") s.ahead = true ∧
        Stuck forms .parens s.ahead x rest) := by
  refine .bind (.takeIf (Q := fun o rest => match o with
    | none => begins (Token.hasText "(") s.ahead = false ∧ rest = s.ahead
    | some t => t.text = "(" ∧ s.ahead = t :: rest) ?_ ?_) ?_
  · intro hnone
    exact ⟨hnone, rfl⟩
  · intro t ts hs ht
    exact ⟨by simpa using ht, hs⟩
  rintro (_ | t) s₁ hs₁
  · exact .pure hs₁
  obtain ⟨ht, hs₁⟩ := hs₁
  have hb : begins (Token.hasText "(") s.ahead = true := by simp [hs₁, ht]
  have hlen : s₁.ahead.length < bound := by simp only [hs₁, List.length_cons] at hs; omega
  refine .bind (.mono (hn.expression s₁ hlen)
    (R := fun n rest => Reads forms .expression s₁.ahead [n] rest) (fun _ _ h => h) ?_) ?_
  · intro x rest h
    rw [hs₁]
    exact ⟨by simpa using ht, .parens ht h⟩
  intro n s₂ hread
  refine .bind (.expect (Q := fun _ rest => ∃ u, s₂.ahead = u :: rest ∧ u.text = ")") ?_ ?_) ?_
  · intro hnone
    rw [hs₁]
    exact ⟨by simpa using ht, .openParens ht hread hnone⟩
  · intro u us hs₂ hu
    exact ⟨u, hs₂, by simpa using hu⟩
  rintro _ s₃ ⟨u, hs₂, hu⟩
  refine .pure ⟨hb, ?_⟩
  rw [hs₁]
  exact .parens ht (hs₂ ▸ hread) hu

theorem parens_formMeets (hn : nested.Agrees forms bound) (hs : s.ahead.length ≤ bound) :
    FormMeets forms .parens (parens nested) s := by
  refine .mono (parens_meets hn hs) ?_ ?_
  · rintro (_ | n) rest h
    · exact h
    · exact ⟨h.1, fun hform => .group hform h.2⟩
  · intro x rest h
    exact ⟨h.1, fun hform => .group hform h.2⟩

theorem block_formMeets (hn : nested.Agrees forms bound) (hs : s.ahead.length ≤ bound) :
    FormMeets forms .block (block nested) s := by
  refine formMeets_of_takeIf fun t ts s₁ hs₁ ht hts => ?_
  have hlen : s₁.ahead.length < bound := by rw [hs₁] at hs; rw [hts]; exact hs
  refine .bind (.skipNewlines (Q := fun _ rest =>
    rest = s₁.ahead.dropWhile (Token.hasKind .newline)) rfl) ?_
  intro _ s₂ hs₂
  have hle := (List.dropWhile_suffix (l := s₁.ahead) (Token.hasKind .newline)).length_le
  refine .bind (.mono (statements_meets hn (s := s₂) (by rw [hs₂]; omega))
    (R := fun ns rest => Reads forms .statements ts ns rest) ?_ ?_) ?_
  · intro ns rest h
    exact hts ▸ .of_dropWhile (hs₂ ▸ h)
  · intro x rest h hform
    exact .block hform (hts ▸ .of_dropWhile (hs₂ ▸ h))
  intro ns s₃ hread
  -- The statements have already taken all line ends in front of the closing brace.
  refine .bind (.skipNewlines (Q := fun _ rest => rest = s₃.ahead) ?_) ?_
  · have hline := hread.begins_newline (.inl rfl)
    cases hs₃ : s₃.ahead with
    | nil => rfl
    | cons u us =>
      rw [hs₃] at hline
      rw [List.dropWhile_cons, if_neg (by simpa using hline)]
  intro _ s₄ hs₄
  refine .bind (.expect (Q := fun _ rest => ∃ u, s₄.ahead = u :: rest ∧ u.text = "\x7d") ?_ ?_) ?_
  · intro hnone hform
    exact .openBlock hform (hs₄ ▸ hread) hnone
  · intro u us hs₄ hu
    exact ⟨u, hs₄, by simpa using hu⟩
  rintro _ s₅ ⟨u, hu, htext⟩
  exact .pure ⟨_, rfl, fun hform => .block hform (hu ▸ hs₄ ▸ hread) htext⟩

/-- A form that consists of one token. -/
theorem literal_formMeets {kind : Token.Kind} {toLeaf : Token → Node} {form : ValueForm}
    (hleads : form.leads = Token.hasKind kind)
    (hleaf : ∀ t ts, s.ahead = t :: ts → form.leads t = true → form.leaf? t = some (toLeaf t)) :
    FormMeets forms form (literal kind toLeaf) s := by
  refine .bind (.takeIf (Q := fun o rest => match o with
    | none => begins form.leads s.ahead = false ∧ rest = s.ahead
    | some t => form.leads t = true ∧ s.ahead = t :: rest) ?_ ?_) ?_
  · intro hnone
    rw [hleads]
    exact ⟨hnone, rfl⟩
  · intro t ts hs ht
    rw [hleads]
    exact ⟨ht, hs⟩
  rintro (_ | t) s' hs'
  · exact .pure hs'
  · obtain ⟨ht, hs⟩ := hs'
    refine .pure ?_
    rw [hs]
    exact ⟨ht, fun hform => .leaf hform (hleaf t _ hs ht)⟩

theorem integer_formMeets : FormMeets forms .integer integer s := by
  refine .bind (.nextIs (Q := fun b rest =>
    b = begins (fun t => t.kind = .integer && maxInteger < integerOf t) s.ahead ∧
      rest = s.ahead) ⟨rfl, rfl⟩) ?_
  rintro b s₁ ⟨rfl, hs₁⟩
  split
  · next hlarge =>
    obtain ⟨t, ts, hts, ht⟩ := exists_cons_of_begins hlarge
    simp only [Bool.and_eq_true, decide_eq_true_eq] at ht
    refine .fail ?_
    rw [hs₁, hts]
    exact ⟨Token.hasKind_eq_true.2 ht.1, fun hform => .integer hform ht.2⟩
  · next hsmall =>
    have h : FormMeets forms .integer (literal .integer integerLeaf) s₁ := by
      refine literal_formMeets rfl fun t ts hts ht => ?_
      rw [← hs₁, hts] at hsmall
      have hle : ¬ maxInteger < integerOf t := by
        intro hlt
        exact hsmall (by simpa [hlt] using Token.hasKind_eq_true.1 ht)
      rw [ValueForm.leaf?, if_neg hle]
    rw [FormMeets, hs₁] at h
    exact h

theorem quoted_formMeets (hn : nested.Agrees forms bound) (hs : s.ahead.length ≤ bound) :
    FormMeets forms .quoted (quoted nested) s := by
  refine formMeets_of_takeIf fun t ts s₁ hs₁ ht hts => ?_
  have hlen : s₁.ahead.length < bound := by rw [hs₁] at hs; rw [hts]; exact hs
  refine .bind (.mono (hn.propertyOrValue s₁ hlen)
    (R := fun n rest => Reads forms .propertyOrValue ts [n] rest) ?_ ?_) ?_
  · intro n rest h
    exact hts ▸ h
  · intro x rest h hform
    exact .quoted hform (hts ▸ h)
  intro n s₂ hread
  exact .pure ⟨_, rfl, fun hform => .quoted hform hread⟩

theorem unquote_formMeets (hn : nested.Agrees forms bound) (hs : s.ahead.length ≤ bound) :
    FormMeets forms .unquote (unquote nested) s := by
  refine formMeets_of_takeIf fun t ts s₁ hs₁ ht hts => ?_
  have hlen : s₁.ahead.length < bound := by rw [hs₁] at hs; rw [hts]; exact hs
  refine .bind (.mono (parens_meets hn (Nat.le_of_lt hlen))
    (R := fun o rest => match o with
      | none => begins (Token.hasText "(") ts = false ∧ rest = ts
      | some n => Reads forms .parens ts [n] rest) ?_ ?_) ?_
  · rintro (_ | n) rest h
    · exact hts ▸ h
    · exact hts ▸ h.2
  · intro x rest h hform
    exact .unquote hform (hts ▸ h.2)
  rintro (_ | n) s₂ h
  · refine .fail fun hform => ?_
    rw [h.2]
    exact .unquote hform (.noParens h.1)
  · exact .pure ⟨_, rfl, fun hform => .unquote hform h⟩

/-- Every form comes to what the grammar says. -/
theorem ValueForm.parser_formMeets (hn : nested.Agrees forms bound) (hs : s.ahead.length ≤ bound)
    (form : ValueForm) : FormMeets forms form (form.parser nested) s := by
  cases form with
  | parens => exact parens_formMeets hn hs
  | block => exact block_formMeets hn hs
  | identifier => exact literal_formMeets rfl fun _ _ _ _ => rfl
  | integer => exact integer_formMeets
  | float => exact literal_formMeets rfl fun _ _ _ _ => rfl
  | string => exact literal_formMeets rfl fun _ _ _ _ => rfl
  | quoted => exact quoted_formMeets hn hs
  | unquote => exact unquote_formMeets hn hs

/-- Trying some forms in turn, when those that were tried before do not apply. -/
theorem firstOf_meets (hn : nested.Agrees forms bound) (hs : s.ahead.length ≤ bound)
    (tried : List ValueForm) (htried : nextForm forms s.ahead = nextForm tried s.ahead) :
    Meets (firstOf (tried.map (·.parser nested))) s
      (fun o rest => match o with
        | none => nextForm forms s.ahead = none ∧ rest = s.ahead
        | some n => Reads forms .value s.ahead [n] rest)
      (Stuck forms .value s.ahead) := by
  induction tried generalizing s with
  | nil =>
    refine .pure ⟨?_, rfl⟩
    rw [htried]
    cases s.ahead <;> rfl
  | cons form tried ih =>
    have hfirst : begins form.leads s.ahead = true → nextForm forms s.ahead = some form := by
      intro hb
      obtain ⟨t, ts, hts, ht⟩ := exists_cons_of_begins hb
      rw [htried, hts]
      simp [formAt, ht]
    refine .bind (.mono (form.parser_formMeets hn hs)
      (R := fun o rest => match o with
        | none => begins form.leads s.ahead = false ∧ rest = s.ahead
        | some n => Reads forms .value s.ahead [n] rest) ?_ ?_) ?_
    · rintro (_ | n) rest h
      · exact h
      · exact h.2 (hfirst h.1)
    · intro x rest h
      exact h.2 (hfirst h.1)
    rintro (_ | n) s₁ h
    · obtain ⟨hb, hs₁⟩ := h
      have hi := ih (s := s₁) (hs₁ ▸ hs) ?_
      · rw [hs₁] at hi
        exact hi
      · rw [hs₁, htried]
        cases hts : s.ahead with
        | nil => rfl
        | cons t ts =>
          rw [hts] at hb
          have hb' : form.leads t = false := hb
          simp [formAt, hb']
    · exact .pure h

theorem value_meets (hn : nested.Agrees settings.forms bound) (hs : s.ahead.length ≤ bound) :
    Follows settings.forms .value (value settings nested) s := by
  refine .traced fun s' hs' => ?_
  have h := firstOf_meets hn (s := s') (hs' ▸ hs) settings.forms rfl
  rw [hs'] at h
  refine .bind h ?_
  rintro (_ | n) s₁ h
  · refine .fail ?_
    rw [h.2]
    exact .noValue h.1
  · exact .pure h

/-! ## Property accesses and chains

The parser collects what it repeats in a list and folds the list afterwards; the grammar builds the
tree as it goes.  What a loop comes to is therefore stated for every tree that it may start from. -/

theorem names_meets :
    Meets (many (·.text = ".") propertyName) s
      (fun names rest =>
        ∀ base, Reads forms (.properties base) s.ahead [names.foldl propertyNode base] rest)
      (fun x rest => ∀ base, Stuck forms (.properties base) s.ahead x rest) := by
  refine .many
    (L := fun input names rest =>
      ∀ base, Reads forms (.properties base) input [names.foldl propertyNode base] rest)
    (E := fun input x rest => ∀ base, Stuck forms (.properties base) input x rest) ?_ ?_
  · intro input hdot base
    exact .noProperty hdot
  · intro s₁ _ hdot
    obtain ⟨t, ts, hts, ht⟩ := exists_cons_of_begins hdot
    have ht : t.text = "." := by simpa using ht
    refine .bind (.expect (Q := fun _ rest => rest = ts) ?_ ?_) ?_
    · intro hnone
      rw [hts] at hnone
      exact absurd ht (by simpa using hnone)
    · intro t' ts' hs₁ _
      rw [hts] at hs₁
      exact (List.cons.inj hs₁).2.symm
    intro _ s₂ hs₂
    refine .expect ?_ ?_
    · intro hnone base
      rw [hts, ← hs₂]
      exact .noName ht hnone
    · intro u us hus hu
      have hu : u.kind = .ident := by simpa using hu
      rw [hs₂] at hus
      subst hus
      rw [hts]
      refine ⟨by simp only [List.length_cons]; omega, ?_, ?_⟩
      · intro names rest h base
        exact .property ht hu (h (propertyNode base u))
      · intro x rest h base
        exact .property ht hu (h (propertyNode base u))

theorem propertyOrValue_meets (hn : nested.Agrees settings.forms bound)
    (hs : s.ahead.length ≤ bound) :
    Follows settings.forms .propertyOrValue (propertyOrValue settings nested) s := by
  refine .traced fun s' hs' => ?_
  have hvalue := value_meets hn (s := s') (hs' ▸ hs)
  rw [Follows, hs'] at hvalue
  refine .bind (.mono hvalue (R := fun n rest => Reads settings.forms .value s.ahead [n] rest)
    (fun _ _ h => h) (fun _ _ h => .base h)) ?_
  intro base s₁ hbase
  refine .bind (.mono names_meets (R := fun names rest =>
    ∀ base, Reads settings.forms (.properties base) s₁.ahead [names.foldl propertyNode base] rest)
    (fun _ _ h => h) (fun _ _ h => .properties hbase (h base))) ?_
  intro names s₂ h
  exact .pure (.propertyOrValue hbase (h base))

/-- The tree of a chain of operators and operands after a first operand. -/
def foldOperands (lhs : Node) (operands : List (Token × Node)) : Node :=
  operands.foldl (fun node (op, rhs) => binaryNode node op rhs) lhs

theorem operands_meets (hn : nested.Agrees settings.forms bound) (hs : s.ahead.length ≤ bound) :
    Meets (many (·.kind = .leftOperator) (leftOperand settings nested)) s
      (fun operands rest => ∀ lhs,
        Reads settings.forms (.operands lhs) s.ahead [foldOperands lhs operands] rest)
      (fun x rest => ∀ lhs, Stuck settings.forms (.operands lhs) s.ahead x rest) := by
  refine .many
    (L := fun input operands rest => ∀ lhs,
      Reads settings.forms (.operands lhs) input [foldOperands lhs operands] rest)
    (E := fun input x rest => ∀ lhs, Stuck settings.forms (.operands lhs) input x rest) ?_ ?_
  · intro input hop lhs
    exact .noOperand hop
  · intro s₁ hs₁ hop
    obtain ⟨op, ts, hts, hop⟩ := exists_cons_of_begins hop
    have hop : op.kind = .leftOperator := by simpa using hop
    refine .bind (.expect (Q := fun t rest => t = op ∧ rest = ts) ?_ ?_) ?_
    · intro hnone
      rw [hts] at hnone
      exact absurd hop (by simpa using hnone)
    · intro t' ts' hs₁ _
      rw [hts] at hs₁
      exact ⟨(List.cons.inj hs₁).1.symm, (List.cons.inj hs₁).2.symm⟩
    rintro _ s₂ ⟨rfl, hs₂⟩
    have hlen : s₁.ahead.length = s₂.ahead.length + 1 := by rw [hts, hs₂]; rfl
    refine .bind (.mono (propertyOrValue_meets hn (s := s₂) (by omega))
      (R := fun n rest => Reads settings.forms .propertyOrValue s₂.ahead [n] rest)
      (fun _ _ h => h) ?_) ?_
    · intro x rest h lhs
      rw [hts, ← hs₂]
      exact .rightOperand hop h
    intro rhs s₃ hrhs
    have hlt := hrhs.length_lt rfl
    refine .pure ⟨by omega, ?_, ?_⟩
    · intro operands rest h lhs
      rw [hts, ← hs₂]
      exact .operand hop hrhs (h _)
    · intro x rest h lhs
      rw [hts, ← hs₂]
      exact .operand hop hrhs (h _)

theorem leftBinary_meets (hn : nested.Agrees settings.forms bound) (hs : s.ahead.length ≤ bound)
    (lhs : Node) : Follows settings.forms (.operands lhs) (leftBinary settings nested lhs) s := by
  refine .traced fun s' hs' => ?_
  have h := operands_meets hn (s := s') (hs' ▸ hs)
  rw [hs'] at h
  refine .bind (.mono h (R := fun operands rest =>
    ∀ lhs, Reads settings.forms (.operands lhs) s.ahead [foldOperands lhs operands] rest)
    (fun _ _ h => h) (fun _ _ h => h lhs)) ?_
  intro operands s₁ h
  exact .pure (h lhs)

theorem chain_meets (hn : nested.Agrees settings.forms bound) (hs : s.ahead.length ≤ bound) :
    Follows settings.forms .chain (chain settings nested) s := by
  refine .bind (.mono (propertyOrValue_meets hn hs)
    (R := fun n rest => Reads settings.forms .propertyOrValue s.ahead [n] rest)
    (fun _ _ h => h) (fun _ _ h => .firstOperand h)) ?_
  intro first s₁ hfirst
  have hlt := hfirst.length_lt rfl
  exact .mono (leftBinary_meets hn (by omega) first)
    (fun _ _ h => .chain hfirst h) (fun _ _ h => .chain hfirst h)

/-! ## Calls and expressions -/

theorem arguments_meets (hn : nested.Agrees settings.forms bound) (hs : s.ahead.length ≤ bound) :
    Meets (many (!endsCall ·) (argument settings nested)) s
      (Reads settings.forms .arguments s.ahead) (Stuck settings.forms .arguments s.ahead) := by
  refine .many (L := Reads settings.forms .arguments) (E := Stuck settings.forms .arguments) ?_ ?_
  · intro input hend
    exact .noArgument hend
  · intro s₁ hs₁ hmore
    refine .bind (.mono (chain_meets hn (s := s₁) (by omega))
      (R := fun n rest => Reads settings.forms .chain s₁.ahead [n] rest)
      (fun _ _ h => h) (fun _ _ h => .firstArgument hmore h)) ?_
    intro arg s₂ harg
    have hlt := harg.length_lt rfl
    refine .bind (.skipText (Q := fun _ mid => mid.length ≤ s₂.ahead.length ∧
      (∀ args rest, Reads settings.forms .arguments mid args rest →
        Reads settings.forms .afterArgument s₂.ahead args rest) ∧
      (∀ x rest, Stuck settings.forms .arguments mid x rest →
        Stuck settings.forms .afterArgument s₂.ahead x rest)) ?_ ?_) ?_
    · intro hcomma
      exact ⟨Nat.le_refl _, fun _ _ h => .noComma hcomma h, fun _ _ h => .noComma hcomma h⟩
    · intro t ts hs₂ ht
      rw [hs₂]
      exact ⟨Nat.le_succ _, fun _ _ h => .comma ht h, fun _ _ h => .comma ht h⟩
    rintro _ s₃ ⟨hle, hreads, hstuck⟩
    exact .pure ⟨by omega, fun _ _ h => .argument hmore harg (hreads _ _ h),
      fun _ _ h => .argument hmore harg (hstuck _ _ h)⟩

theorem intermediate_meets (hn : nested.Agrees settings.forms bound)
    (hs : s.ahead.length ≤ bound) :
    Follows settings.forms .intermediate (intermediate settings nested) s := by
  refine .traced fun s' hs' => ?_
  have h := propertyOrValue_meets hn (s := s') (hs' ▸ hs)
  rw [Follows, hs'] at h
  refine .bind (.mono h
    (R := fun n rest => Reads settings.forms .propertyOrValue s.ahead [n] rest)
    (fun _ _ h => h) (fun _ _ h => .callee h)) ?_
  intro first s₁ hfirst
  have hlt := hfirst.length_lt rfl
  refine .bind (.nextIs (Q := fun b rest =>
    b = begins (Token.hasKind .leftOperator) s₁.ahead ∧ rest = s₁.ahead) ⟨rfl, rfl⟩) ?_
  rintro b s₂ ⟨rfl, hs₂⟩
  split
  · next hop =>
    have hl := leftBinary_meets hn (s := s₂) (by rw [hs₂]; omega) first
    rw [Follows, hs₂] at hl
    exact .mono hl (fun _ _ h => .operation hfirst hop h) (fun _ _ h => .operation hfirst hop h)
  · next hop =>
    have hop : begins (Token.hasKind .leftOperator) s₁.ahead = false := by simpa using hop
    have ha := arguments_meets hn (s := s₂) (by rw [hs₂]; omega)
    rw [hs₂] at ha
    refine .bind (.mono ha (R := Reads settings.forms .arguments s₁.ahead)
      (fun _ _ h => h) (fun _ _ h => .call hfirst hop h)) ?_
    intro args s₃ hargs
    exact .pure (.call hfirst hop hargs)

theorem expressionRule_meets (hn : nested.Agrees settings.forms bound)
    (hs : s.ahead.length ≤ bound) :
    Follows settings.forms .expression (expressionRule settings nested) s := by
  refine .traced fun s' hs' => ?_
  have h := intermediate_meets hn (s := s') (hs' ▸ hs)
  rw [Follows, hs'] at h
  refine .bind (.mono h
    (R := fun n rest => Reads settings.forms .intermediate s.ahead [n] rest)
    (fun _ _ h => h) (fun _ _ h => .lhs h)) ?_
  intro lhs s₁ hlhs
  have hlt := hlhs.length_lt rfl
  refine .bind (.takeIf (Q := fun o rest => match o with
    | none => begins (Token.hasKind .rightOperator) s₁.ahead = false ∧ rest = s₁.ahead
    | some op => op.kind = .rightOperator ∧ s₁.ahead = op :: rest) ?_ ?_) ?_
  · intro hnone
    exact ⟨hnone, rfl⟩
  · intro op ts hts hop
    exact ⟨by simpa using hop, hts⟩
  rintro (_ | op) s₂ h₂
  · refine .pure ?_
    rw [h₂.2]
    exact .plain hlhs h₂.1
  · obtain ⟨hop, hs₁⟩ := h₂
    rw [hs₁] at hlhs hlt
    simp only [List.length_cons] at hlt
    refine .bind (.mono (hn.expression s₂ (by omega))
      (R := fun n rest => Reads settings.forms .expression s₂.ahead [n] rest)
      (fun _ _ h => h) (fun _ _ h => .nested hlhs hop h)) ?_
    intro rhs s₃ hrhs
    exact .pure (.nested hlhs hop hrhs)

end Rules

/-! ## The whole grammar -/

variable {settings : Settings} {s : State}

/-- The rules for at most `bound` tokens follow the grammar as long as fewer are ahead. -/
theorem grammar_agrees (settings : Settings) (bound : Nat) :
    (grammar settings bound).Agrees settings.forms bound := by
  induction bound with
  | zero => exact ⟨fun s hs => absurd hs (by omega), fun s hs => absurd hs (by omega)⟩
  | succ bound ih =>
    exact ⟨fun s hs => expressionRule_meets ih (by omega),
      fun s hs => propertyOrValue_meets ih (by omega)⟩

theorem inGrammar_statements_meets :
    Meets (inGrammar settings statements) s (Reads settings.forms .statements s.ahead)
      (Stuck settings.forms .statements s.ahead) :=
  statements_meets (grammar_agrees settings _) (Nat.lt_succ_self _)

/-! ## Programs -/

/-- A token list is no program: its statements cannot be read, or something is left behind them. -/
def Rejects (forms : List ValueForm) (ts : List Token) (x : String) (rest : List Token) : Prop :=
  Stuck forms .statements ts x rest ∨
    (x = "end of input" ∧ rest ≠ [] ∧ ∃ ns, Reads forms .statements ts ns rest)

theorem program_meets :
    Meets (program settings) s
      (fun n rest => rest = [] ∧ ∃ ns, n = .branch .program ns none ∧
        Reads settings.forms .statements s.ahead ns [])
      (Rejects settings.forms s.ahead) := by
  refine .traced fun s' hs' => ?_
  have h : Meets (inGrammar settings statements) s' _ _ := inGrammar_statements_meets
  rw [hs'] at h
  refine .bind (.mono h (R := Reads settings.forms .statements s.ahead)
    (fun _ _ h => h) (fun _ _ h => .inl h)) ?_
  intro ns s₁ hread
  refine .bind (.nextIs (Q := fun b rest => b = begins (fun _ => true) s₁.ahead ∧
    rest = s₁.ahead) ⟨rfl, rfl⟩) ?_
  rintro b s₂ ⟨rfl, hs₂⟩
  cases hs₁ : s₁.ahead with
  | nil =>
    rw [hs₁] at hread hs₂
    exact .pure ⟨hs₂, ns, rfl, hread⟩
  | cons t ts =>
    rw [hs₁] at hread hs₂
    refine .fail (.inr ⟨rfl, ?_, ns, ?_⟩)
    · rw [hs₂]
      exact List.cons_ne_nil _ _
    · rw [hs₂]
      exact hread

theorem expressions_meets :
    Meets (expressions settings) s
      (fun n rest => ∃ ns, n = .branch .expressions ns none ∧
        Reads settings.forms .statements s.ahead ns rest)
      (Stuck settings.forms .statements s.ahead) := by
  refine .traced fun s' hs' => ?_
  have h : Meets (inGrammar settings statements) s' _ _ := inGrammar_statements_meets
  rw [hs'] at h
  exact .bind h fun ns s₁ hread => .pure ⟨ns, rfl, hread⟩

variable {ts : List Token} {node : Node} {e : ParseError}

/-- The parser makes a program of statements that can be read up to the end. -/
theorem reads_of_parseTokens (h : parseTokens settings .program ts = .ok node s) :
    s.tokens = ts ∧ s.ahead = [] ∧ ∃ ns, node = .branch .program ns none ∧
      Reads settings.forms .statements ts ns [] := by
  have hm : Meets (program settings) (State.ofTokens ts) _ _ := program_meets
  rw [Meets, show program settings (State.ofTokens ts) = .ok node s from h] at hm
  exact hm

/-- Otherwise it fails in the place where, and for the reason for which, the token list is no
program. -/
theorem rejects_of_parseTokens (h : parseTokens settings .program ts = .error e s) :
    s.tokens = ts ∧ ∃ x, e = s.error x ∧ Rejects settings.forms ts x s.ahead := by
  have hm : Meets (program settings) (State.ofTokens ts) _ _ := program_meets
  rw [Meets, show program settings (State.ofTokens ts) = .error e s from h] at hm
  exact hm

/-- A program is not rejected. -/
theorem Reads.not_rejects {ns : List Node} {x : String} {rest : List Token} {forms : List ValueForm}
    (h : Reads forms .statements ts ns []) : ¬ Rejects forms ts x rest := by
  rintro (hstuck | ⟨-, hne, ns', h'⟩)
  · exact h.not_stuck hstuck
  · exact hne (h.unique h').2.symm

theorem Rejects.unique {x x' : String} {rest rest' : List Token} {forms : List ValueForm}
    (h : Rejects forms ts x rest) (h' : Rejects forms ts x' rest') : x = x' ∧ rest = rest' := by
  rcases h with h | ⟨rfl, -, ns, h⟩
  · rcases h' with h' | ⟨-, -, ns', h'⟩
    · exact h.unique h'
    · exact absurd h h'.not_stuck
  · rcases h' with h' | ⟨rfl, -, ns', h'⟩
    · exact absurd h' h.not_stuck
    · exact ⟨rfl, (h.unique h').2⟩

/-- **The parser accepts every program of the grammar**, and makes its tree. -/
theorem parseTokens_of_reads {ns : List Node} (h : Reads settings.forms .statements ts ns []) :
    ∃ s, parseTokens settings .program ts = .ok (.branch .program ns none) s ∧ s.ahead = [] := by
  cases hp : parseTokens settings .program ts with
  | ok node s =>
    obtain ⟨-, hs, ns', rfl, h'⟩ := reads_of_parseTokens hp
    rw [(h.unique h').1]
    exact ⟨s, rfl, hs⟩
  | error e s =>
    obtain ⟨-, x, -, hx⟩ := rejects_of_parseTokens hp
    exact absurd hx h.not_rejects

/-- As a sequence of statements a program is parsed with the same statements. -/
theorem parseTokens_expressions_of_reads {ns : List Node}
    (h : Reads settings.forms .statements ts ns []) :
    ∃ s, parseTokens settings .expressions ts = .ok (.branch .expressions ns none) s := by
  have hm : Meets (expressions settings) (State.ofTokens ts) _ _ := expressions_meets
  cases hp : parseTokens settings .expressions ts with
  | ok node s =>
    rw [Meets, show expressions settings (State.ofTokens ts) = .ok node s from hp] at hm
    obtain ⟨-, ns', rfl, h'⟩ := hm
    rw [(h.unique h').1]
    exact ⟨s, rfl⟩
  | error e s =>
    rw [Meets, show expressions settings (State.ofTokens ts) = .error e s from hp] at hm
    obtain ⟨-, x, -, hstuck⟩ := hm
    exact absurd hstuck h.not_stuck

/-- **The parser rejects all other token lists**, and says why and where. -/
theorem parseTokens_of_rejects {x : String} {rest : List Token}
    (h : Rejects settings.forms ts x rest) :
    ∃ s, parseTokens settings .program ts = .error (s.error x) s ∧ s.tokens = ts ∧
      s.ahead = rest := by
  cases hp : parseTokens settings .program ts with
  | ok node s =>
    obtain ⟨-, -, ns, -, h'⟩ := reads_of_parseTokens hp
    exact absurd h h'.not_rejects
  | error e s =>
    obtain ⟨hs, x', rfl, h'⟩ := rejects_of_parseTokens hp
    obtain ⟨rfl, rfl⟩ := h.unique h'
    exact ⟨s, rfl, hs, rfl⟩

end Juxta.Parser
