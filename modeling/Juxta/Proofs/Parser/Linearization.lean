import Juxta.Node.Equality
import Juxta.Proofs.Parser.Lookahead
import Juxta.Proofs.Parser.Yield

/-!
# Parsing undoes writing

A tree of the grammar can be written as tokens in more than one way: a comma may follow each
argument of a call, and statements are separated by a semicolon or by line ends.  Whatever way is
chosen, the parser reads back an equal tree.

The parser is greedy and knows no precedence, so each part of a tree is read back only in front of
something that does not continue it.  What that is depends on the category of the tree: a quotation
must not be followed by a point, an operand not by a further operator, a call not by a value.

## What is here

* `Written n ts`, `WrittenArguments`, `WrittenStatements` — the ways in which trees are written.
* `Ends rest` — nothing in `rest` continues a call or a chain of operators.
* `ReadsBack` — what reading a written tree back means for each category.
* `HasShape.readsBack` — every tree of the grammar is read back.
* `parse_written` — parsing undoes writing.
-/

set_option autoImplicit false
namespace Juxta.Parser

/-! ## Ways to write a tree -/

mutual

/-- `Written n ts`: the tokens `ts` write the tree `n`, wherever they and its nodes start. -/
inductive Written : Node → List Token → Prop
  | leaf {k : Node.Kind} {p : Node.Payload} {start : Option Int} {t : Token}
      (ht : t.terminal = .leaf k p) : Written (.leaf k p start) [t]
  | parens {n : Node} {start : Option Int} {t u : Token} {ts : List Token}
      (ht : t.terminal = .mark "(") (h : Written n ts) (hu : u.terminal = .mark ")") :
      Written (.branch .parenthesis [n] start) (t :: ts ++ [u])
  | block {ns : List Node} {start : Option Int} {t u : Token} {ts : List Token}
      (ht : t.terminal = .mark "\x7b") (h : WrittenStatements ns ts)
      (hu : u.terminal = .mark "\x7d") : Written (.branch .block ns start) (t :: ts ++ [u])
  | quoted {n : Node} {start : Option Int} {t : Token} {ts : List Token}
      (ht : t.terminal = .mark ":") (h : Written n ts) :
      Written (.branch .quoted [n] start) (t :: ts)
  | unquote {n : Node} {start : Option Int} {t : Token} {ts : List Token}
      (ht : t.terminal = .mark "$") (h : Written n ts) :
      Written (.branch .unquote [n] start) (t :: ts)
  | property {base name : Node} {start : Option Int} {t : Token} {ts us : List Token}
      (hbase : Written base ts) (ht : t.terminal = .mark ".") (hname : Written name us) :
      Written (.branch .propertyAccess [base, name] start) (ts ++ t :: us)
  | binary {lhs op rhs : Node} {start : Option Int} {ts us vs : List Token}
      (hlhs : Written lhs ts) (hop : Written op us) (hrhs : Written rhs vs) :
      Written (.branch .binary [lhs, op, rhs] start) (ts ++ us ++ vs)
  | call {callee : Node} {args : List Node} {start : Option Int} {ts us : List Token}
      (hcallee : Written callee ts) (hargs : WrittenArguments args us) :
      Written (.branch .functionCall (callee :: args) start) (ts ++ us)

/-- Arguments are written one after the other, each with or without a comma behind it. -/
inductive WrittenArguments : List Node → List Token → Prop
  | nil : WrittenArguments [] []
  | plain {n : Node} {ns : List Node} {ts us : List Token} (h : Written n ts)
      (hns : WrittenArguments ns us) : WrittenArguments (n :: ns) (ts ++ us)
  | comma {n : Node} {ns : List Node} {t : Token} {ts us : List Token} (h : Written n ts)
      (ht : t.terminal = .mark ",") (hns : WrittenArguments ns us) :
      WrittenArguments (n :: ns) (ts ++ t :: us)

/-- Statements are written one after the other, with a semicolon or line ends between any two. -/
inductive WrittenStatements : List Node → List Token → Prop
  | nil : WrittenStatements [] []
  | last {n : Node} {ts : List Token} (h : Written n ts) : WrittenStatements [n] ts
  | semicolon {n m : Node} {ns : List Node} {t : Token} {ts us : List Token} (h : Written n ts)
      (ht : t.terminal = .mark ";") (hns : WrittenStatements (m :: ns) us) :
      WrittenStatements (n :: m :: ns) (ts ++ t :: us)
  | newlines {n m : Node} {ns : List Node} {lines ts us : List Token} (h : Written n ts)
      (hne : lines ≠ []) (hlines : ∀ t ∈ lines, t.kind = .newline)
      (hns : WrittenStatements (m :: ns) us) :
      WrittenStatements (n :: m :: ns) (ts ++ lines ++ us)

end

/-! ## What the tokens are -/

/-- The forms of a value, as the usual settings have them. -/
abbrev standardForms : List ValueForm :=
  Settings.standard.forms

variable {t : Token}

theorem text_of_mark {text : String} (h : t.terminal = .mark text) : t.text = text := by
  rw [Token.terminal] at h
  cases hk : t.kind <;> rw [hk] at h <;> simp at h <;> exact h

theorem kind_of_operator {text : String} (h : t.terminal = .leaf .operator (.str text)) :
    (t.kind = .leftOperator ∨ t.kind = .rightOperator) ∧ t.text = text := by
  rw [Token.terminal] at h
  cases hk : t.kind <;> rw [hk] at h <;> simp at h <;> simp [h]

theorem kind_of_name {name : String} (h : t.terminal = .leaf .identifier (.str name)) :
    t.kind = .ident ∧ t.text = name := by
  rw [Token.terminal] at h
  cases hk : t.kind <;> rw [hk] at h <;> simp at h
  exact ⟨rfl, h⟩

/-- The form of the values that the tokens of a class lead, if the class alone says so. -/
def formOfKind : Token.Kind → Option ValueForm
  | .ident => some .identifier
  | .integer => some .integer
  | .float => some .float
  | .string => some .string
  | .quote => some .quoted
  | .unquote => some .unquote
  | _ => none

theorem formAt_of_kind (h : t.Lexical) (hk : t.kind ≠ .punctuation) :
    formAt standardForms t = formOfKind t.kind := by
  have hparen : t.text ≠ "(" := fun htext => hk (h.kind_of_text (c := '(') rfl htext)
  have hbrace : t.text ≠ "\x7b" := fun htext => hk (h.kind_of_text (c := '\x7b') rfl htext)
  cases hkind : t.kind <;>
    simp [formAt, standardForms, Settings.standard, ValueForm.leads, Token.hasText, Token.hasKind,
      formOfKind, hparen, hbrace, hkind]

/-- The class of a token of a source says which form it leads, if it is no punctuation. -/
theorem formAt_of_formOfKind {k : Token.Kind} {form : ValueForm} (h : t.Lexical) (hk : t.kind = k)
    (hform : formOfKind k = some form) : formAt standardForms t = some form := by
  have hne : t.kind ≠ .punctuation := by
    rw [hk]
    rintro rfl
    cases hform
  rw [formAt_of_kind h hne, hk, hform]

theorem formAt_openParen (ht : t.text = "(") : formAt standardForms t = some .parens := by
  simp [formAt, standardForms, Settings.standard, ValueForm.leads, Token.hasText, ht]

theorem formAt_openBrace (ht : t.text = "\x7b") : formAt standardForms t = some .block := by
  simp [formAt, standardForms, Settings.standard, ValueForm.leads, Token.hasText, ht]

/-! ## Leaves -/

theorem Payload.equal_str (s : String) : (Node.Payload.str s).equal (.str s) = true :=
  decide_eq_true rfl

theorem Payload.equal_int (n : Int) : (Node.Payload.int n).equal (.int n) = true :=
  decide_eq_true rfl

theorem equal_leaf {k : Node.Kind} {p : Node.Payload} {start start' : Option Int}
    (h : p.equal p = true) : (Node.leaf k p start).equal (.leaf k p start') = true := by
  rw [Node.equal, h, decide_eq_true rfl, Bool.and_self]

theorem HasShape.le_maxInteger {z : Int} {start : Option Int}
    (h : HasShape .value (.leaf .integer (.int z) start)) : z ≤ maxInteger := by
  cases h with
  | group h => cases h
  | integer _ hmax => exact hmax

theorem not_hasShape_operator {p : Node.Payload} {start : Option Int} :
    ¬ HasShape .value (.leaf .operator p start) := by
  intro h
  cases h with
  | group h => cases h

/-- A token that stands for a leaf of a tree of the grammar is read as that leaf. -/
theorem reads_leaf {k : Node.Kind} {p : Node.Payload} {start : Option Int} (ht : t.Lexical)
    (hterm : t.terminal = .leaf k p) (hshape : HasShape .value (.leaf k p start))
    (rest : List Token) :
    ∃ n, n.equal (.leaf k p start) = true ∧ Reads standardForms .value (t :: rest) [n] rest := by
  rw [Token.terminal] at hterm
  cases hk : t.kind <;> rw [hk] at hterm <;> simp only [Terminal.leaf.injEq, reduceCtorEq] at hterm
  all_goals obtain ⟨rfl, rfl⟩ := hterm
  case ident =>
    exact ⟨_, equal_leaf (Payload.equal_str _), .leaf (formAt_of_formOfKind ht hk rfl) rfl⟩
  case string =>
    exact ⟨_, equal_leaf (Payload.equal_str _), .leaf (formAt_of_formOfKind ht hk rfl) rfl⟩
  case float =>
    obtain ⟨c, l, htext, hc⟩ := ht.exists_cons
    rw [hk] at hc
    have hself := Decimal.beq_self_of_readFloat? htext hc
    exact ⟨_, equal_leaf hself, .leaf (formAt_of_formOfKind ht hk rfl) rfl⟩
  case integer =>
    have hform := formAt_of_formOfKind ht hk rfl
    refine ⟨integerLeaf t, equal_leaf (Payload.equal_int _), .leaf hform ?_⟩
    rw [ValueForm.leaf?, if_neg (Int.not_lt.2 hshape.le_maxInteger)]
  all_goals exact absurd hshape not_hasShape_operator

/-! ## Ends -/

/-- Nothing in front of `rest` continues a call or a chain of operators. -/
structure Ends (rest : List Token) : Prop where
  point : begins (Token.hasText ".") rest = false
  operator : begins (Token.hasKind .leftOperator) rest = false
  comma : begins (Token.hasText ",") rest = false
  call : begins (!endsCall ·) rest = false

/-- Nothing in front of `rest` continues an expression. -/
structure EndsExpression (rest : List Token) : Prop extends Ends rest where
  rightOperator : begins (Token.hasKind .rightOperator) rest = false

variable {rest : List Token}

theorem EndsExpression.nil : EndsExpression [] :=
  ⟨⟨rfl, rfl, rfl, rfl⟩, rfl⟩

/-- A mark that ends a call, or a line end, ends an expression. -/
theorem EndsExpression.cons (hpoint : t.text ≠ ".") (hcomma : t.text ≠ ",")
    (hcall : endsCall t = true) (hl : t.kind ≠ .leftOperator) (hr : t.kind ≠ .rightOperator) :
    EndsExpression (t :: rest) :=
  ⟨⟨by simpa using hpoint, by simpa using hl, by simpa using hcomma, by simpa using hcall⟩,
    by simpa using hr⟩

theorem endsExpression_mark {c : Char} (h : t.Lexical) (htext : t.text = String.ofList [c])
    (hc : c = ';' ∨ c = ')' ∨ c = '\x7d') : EndsExpression (t :: rest) := by
  have hkind : t.kind = .punctuation := by
    refine h.kind_of_text ?_ htext
    rcases hc with rfl | rfl | rfl <;> rfl
  have hcall : endsCall t = true := by
    rw [endsCall, htext]
    rcases hc with rfl | rfl | rfl <;> simp
  refine .cons ?_ ?_ hcall (by simp [hkind]) (by simp [hkind])
  all_goals
    rw [htext]
    rcases hc with rfl | rfl | rfl <;> decide

theorem endsExpression_newline (h : t.Lexical) (hk : t.kind = .newline) :
    EndsExpression (t :: rest) := by
  have hne {c : Char} (hc : Token.isPunctuation c = true) : t.text ≠ String.ofList [c] :=
    fun htext => absurd (hk.symm.trans (h.kind_of_text hc htext)) (by decide)
  exact .cons (hne (c := '.') rfl) (hne (c := ',') rfl) (by simp [endsCall, hk]) (by simp [hk])
    (by simp [hk])

/-- An operator that nests to the right ends a call and a chain. -/
theorem ends_rightOperator (h : t.Lexical) (hk : t.kind = .rightOperator) : Ends (t :: rest) := by
  have htext := h.text_of_rightOperator hk
  refine ⟨?_, by simp [hk], ?_, ?_⟩
  all_goals rcases htext with htext | htext <;> simp [htext, endsCall]

/-! ## Values begin -/

/-- Nothing that continues a phrase leads a value. -/
structure Opens (input : List Token) : Prop where
  point : begins (Token.hasText ".") input = false
  operator : begins (Token.hasKind .leftOperator) input = false
  comma : begins (Token.hasText ",") input = false
  call : begins (!endsCall ·) input = true
  line : begins (Token.hasKind .newline) input = false
  statement : begins opensStatement input = true

theorem Opens.cons (hpoint : t.text ≠ ".") (hl : t.kind ≠ .leftOperator) (hcomma : t.text ≠ ",")
    (hcall : endsCall t = false) (hline : t.kind ≠ .newline) (hbrace : t.text ≠ "\x7d") :
    Opens (t :: rest) :=
  ⟨by simpa using hpoint, by simpa using hl, by simpa using hcomma, by simpa using hcall,
    by simpa using hline, by simpa [opensStatement] using hbrace⟩

/-- A token of a class that leads values does not end a call. -/
theorem endsCall_of_formOfKind (h : t.Lexical) (hform : formOfKind t.kind ≠ none) :
    endsCall t = false := by
  have hne {c : Char} {l : List Char} (hc : ∀ k ∈ Token.Kind.all, k.leads c = true →
      formOfKind k = none) : t.text ≠ String.ofList (c :: l) :=
    fun htext => hform (hc t.kind (Token.Kind.mem_all _) (h.leads_of_text htext))
  have hassign {c : Char} : t.text ≠ String.ofList [':', c] := by
    intro htext
    have hlead := h.leads_of_text htext
    have hkind : ∀ k ∈ Token.Kind.all, k.leads ':' = true → formOfKind k ≠ none → k = .quote := by
      decide
    have hquote := h.text_of_quote (hkind t.kind (Token.Kind.mem_all _) hlead hform)
    exact absurd (congrArg String.length (htext.symm.trans hquote)) (by simp)
  have harrow : t.text ≠ "->" := by
    intro htext
    have hlead := h.leads_of_text (c := '-') (l := ['>']) htext
    have hkind : ∀ k ∈ Token.Kind.all, k.leads '-' = true → formOfKind k ≠ none → k = .ident := by
      decide
    have hident := hkind t.kind (Token.Kind.mem_all _) hlead hform
    exact absurd (h.text_of_ident (c := '-') hident htext '>' List.mem_cons_self) (by decide)
  have hline : t.kind ≠ .newline := fun hk => hform (hk ▸ rfl)
  have hsemi : t.text ≠ ";" := hne (c := ';') (l := []) (by decide)
  have hparen : t.text ≠ ")" := hne (c := ')') (l := []) (by decide)
  have hbracket : t.text ≠ "]" := hne (c := ']') (l := []) (by decide)
  have hbrace : t.text ≠ "\x7d" := hne (c := '\x7d') (l := []) (by decide)
  have hback : t.text ≠ "<-" := hne (c := '<') (l := ['-']) (by decide)
  have hpipe : t.text ≠ "|>" := hne (c := '|') (l := ['>']) (by decide)
  have heq : t.text ≠ ":=" := hassign
  have hcolons : t.text ≠ "::" := hassign
  simp [endsCall, hline, hsemi, hparen, hbracket, hbrace, hback, hpipe, heq, hcolons, harrow]

/-- A token that leads a value continues nothing. -/
theorem opens_of_formAt {form : ValueForm} (h : t.Lexical)
    (hform : formAt standardForms t = some form) : Opens (t :: rest) := by
  by_cases hk : t.kind = .punctuation
  · have htext : t.text = "(" ∨ t.text = "\x7b" := by
      have hlead := leads_of_formAt hform
      cases form <;> simp [ValueForm.leads, hk] at hlead <;> simp [hlead]
    rcases htext with htext | htext
    all_goals
      refine .cons ?_ (by simp [hk]) ?_ (by simp [endsCall, hk, htext]) (by simp [hk]) ?_
      all_goals simp [htext]
  · rw [formAt_of_kind h hk] at hform
    have hne {c : Char} (hc : Token.isPunctuation c = true) : t.text ≠ String.ofList [c] :=
      fun htext => hk (h.kind_of_text hc htext)
    refine .cons (hne (c := '.') rfl) ?_ (hne (c := ',') rfl)
      (endsCall_of_formOfKind h (by simp [hform])) ?_ (hne (c := '\x7d') rfl)
    · exact fun hl => absurd (hl ▸ hform) (by simp [formOfKind])
    · exact fun hl => absurd (hl ▸ hform) (by simp [formOfKind])

theorem Reads.exists_formAt {forms : List ValueForm} {phrase : Phrase} {input rest : List Token}
    {ns : List Node} (h : Reads forms phrase input ns rest) (hsolid : phrase.isSolid = true)
    (hparens : phrase ≠ .parens) :
    ∃ t ts form, input = t :: ts ∧ formAt forms t = some form := by
  induction h with
  | @leaf t ts form n hform => exact ⟨t, ts, form, rfl, hform⟩
  | @group input rest ns hform h ih =>
    cases input with
    | nil => cases hform
    | cons t ts => exact ⟨t, ts, _, rfl, hform⟩
  | @block t u ts rest ns hform => exact ⟨t, ts, _, rfl, hform⟩
  | @quoted t ts rest n hform => exact ⟨t, ts, _, rfl, hform⟩
  | @unquote t ts rest n hform => exact ⟨t, ts, _, rfl, hform⟩
  | parens => exact absurd rfl hparens
  | propertyOrValue _ _ ih | chain _ _ ih | operation _ _ _ ih | call _ _ _ ih | plain _ _ ih
  | nested _ _ _ ih => exact ih rfl (by simp)
  | _ => cases hsolid

/-! ## Reading back -/

variable {n : Node} {ns : List Node} {ts : List Token}

/-- What it means that a written tree of the category is read back. -/
def ReadsBack (n : Node) (ts : List Token) : Category → Prop
  | .parens => ∀ rest, ∃ n', n'.equal n = true ∧ Reads standardForms .parens (ts ++ rest) [n'] rest
  | .value =>
    ∀ rest, (n.kind = .quoted → begins (Token.hasText ".") rest = false) →
      ∃ n', n'.equal n = true ∧ Reads standardForms .value (ts ++ rest) [n'] rest
  -- Properties that follow are read as if they followed the tree that is read back.
  | .propertyOrValue =>
    ∀ rest, (n.kind = .quoted → begins (Token.hasText ".") rest = false) →
      ∃ n', n'.equal n = true ∧ ∀ ns r, Reads standardForms (.properties n') rest ns r →
        Reads standardForms .propertyOrValue (ts ++ rest) ns r
  -- So are operands that follow.  Either the chain is a single operand, or an operator comes next.
  | .chain =>
    ∀ rest, begins (Token.hasText ".") rest = false →
      ∃ n' first mid, n'.equal n = true ∧
        Reads standardForms .propertyOrValue (ts ++ rest) [first] mid ∧
        (∀ ns r, Reads standardForms (.operands n') rest ns r →
          Reads standardForms (.operands first) mid ns r) ∧
        (first = n' ∧ mid = rest ∨ begins (Token.hasKind .leftOperator) mid = true)
  | .intermediate =>
    ∀ rest, Ends rest →
      ∃ n', n'.equal n = true ∧ Reads standardForms .intermediate (ts ++ rest) [n'] rest
  | .expression =>
    ∀ rest, EndsExpression rest →
      ∃ n', n'.equal n = true ∧ Reads standardForms .expression (ts ++ rest) [n'] rest

/-- A chain is read back as an argument in front of something that does not continue it. -/
theorem reads_chain_of_readsBack (h : ReadsBack n ts .chain)
    (hpoint : begins (Token.hasText ".") rest = false)
    (hop : begins (Token.hasKind .leftOperator) rest = false) :
    ∃ n', n'.equal n = true ∧ Reads standardForms .chain (ts ++ rest) [n'] rest := by
  obtain ⟨n', first, mid, heq, hfirst, hgo, -⟩ := h rest hpoint
  exact ⟨n', heq, .chain hfirst (hgo _ _ (.noOperand hop))⟩

/-- What is read back begins like a value. -/
theorem Reads.opens {phrase : Phrase} (h : Reads standardForms phrase (ts ++ rest) ns rest)
    (hsolid : phrase.isSolid = true) (hparens : phrase ≠ .parens) (hlex : ∀ t ∈ ts, t.Lexical) :
    Opens (ts ++ rest) := by
  obtain ⟨t, us, form, hts, hform⟩ := h.exists_formAt hsolid hparens
  cases ts with
  | nil => exact absurd rfl (ne_nil_of_length_lt (h.length_lt hsolid))
  | cons u ts =>
    obtain ⟨rfl, -⟩ := List.cons.inj hts
    exact opens_of_formAt (hlex u List.mem_cons_self) hform

/-- One expression is one statement. -/
theorem Reads.statements_of_expression {n : Node} (h : Reads standardForms .expression ts [n] [])
    (hlex : ∀ t ∈ ts, t.Lexical) : Reads standardForms .statements ts [n] [] := by
  have hall : Reads standardForms .expression (ts ++ []) [n] [] := by rwa [List.append_nil]
  have hopens := hall.opens rfl (by simp) hlex
  rw [List.append_nil] at hopens
  exact .statement hopens.line hopens.statement h (.noSemicolon rfl (.noStatement rfl rfl))

/-- What arguments are read back from does not continue an argument before them. -/
theorem arguments_quiet (h : Reads standardForms .arguments (ts ++ rest) ns rest)
    (hlex : ∀ t ∈ ts, t.Lexical) (hrest : Ends rest) :
    begins (Token.hasText ".") (ts ++ rest) = false ∧
      begins (Token.hasKind .leftOperator) (ts ++ rest) = false ∧
      begins (Token.hasText ",") (ts ++ rest) = false := by
  cases ts with
  | nil => exact ⟨hrest.point, hrest.operator, hrest.comma⟩
  | cons t ts =>
    generalize hinput : t :: ts ++ rest = input at h
    cases h with
    | noArgument =>
      have hlength := congrArg List.length hinput
      simp only [List.length_append, List.length_cons] at hlength
      omega
    | argument _ harg _ =>
      obtain ⟨u, us, form, rfl, hform⟩ := harg.exists_formAt rfl (by simp)
      obtain ⟨rfl, -⟩ := List.cons.inj hinput
      have hopens : Opens (t :: us) := opens_of_formAt (hlex t List.mem_cons_self) hform
      exact ⟨hopens.point, hopens.operator, hopens.comma⟩

/-- Arguments are read back if each of them is. -/
theorem reads_arguments {args : List Node}
    (hargs : ∀ arg ∈ args, ∀ ts, Written arg ts → (∀ t ∈ ts, t.Lexical) → ReadsBack arg ts .chain)
    (hw : WrittenArguments args ts) (hlex : ∀ t ∈ ts, t.Lexical) (hrest : Ends rest) :
    ∃ args', Node.equalAll args' args = true ∧
      Reads standardForms .arguments (ts ++ rest) args' rest := by
  induction args generalizing ts with
  | nil =>
    cases hw
    exact ⟨[], rfl, .noArgument hrest.call⟩
  | cons arg args ih =>
    obtain ⟨harg, hargs⟩ := List.forall_mem_cons.1 hargs
    cases hw with
    | @plain _ _ ts us h hns =>
      obtain ⟨hts, hus⟩ := List.forall_mem_append.1 hlex
      obtain ⟨args', heqs, hreads⟩ := ih hargs hns hus
      obtain ⟨hpoint, hop, hcomma⟩ := arguments_quiet hreads hus hrest
      obtain ⟨arg', heq, hread⟩ := reads_chain_of_readsBack (harg ts h hts) hpoint hop
      rw [List.append_assoc]
      have hopens := hread.opens rfl (by simp) hts
      refine ⟨arg' :: args', ?_, .argument hopens.call hread (.noComma hcomma hreads)⟩
      rw [Node.equalAll, heq, heqs, Bool.and_self]
    | @comma _ _ t ts us h ht hns =>
      obtain ⟨hts, hus⟩ := List.forall_mem_append.1 hlex
      obtain ⟨htlex, hus⟩ := List.forall_mem_cons.1 hus
      obtain ⟨args', heqs, hreads⟩ := ih hargs hns hus
      have htext := text_of_mark ht
      have hkind := htlex.kind_of_text (c := ',') rfl htext
      have hpoint : begins (Token.hasText ".") (t :: us ++ rest) = false := by simp [htext]
      have hop : begins (Token.hasKind .leftOperator) (t :: us ++ rest) = false := by simp [hkind]
      obtain ⟨arg', heq, hread⟩ := reads_chain_of_readsBack (harg ts h hts) hpoint hop
      rw [List.append_assoc]
      have hopens := hread.opens rfl (by simp) hts
      refine ⟨arg' :: args', ?_, .argument hopens.call hread (.comma htext hreads)⟩
      rw [Node.equalAll, heq, heqs, Bool.and_self]

/-- Nothing in front of `rest` continues statements. -/
structure EndsStatements (rest : List Token) : Prop extends EndsExpression rest where
  semicolon : begins (Token.hasText ";") rest = false
  line : begins (Token.hasKind .newline) rest = false
  statement : begins opensStatement rest = false

theorem EndsStatements.nil : EndsStatements [] :=
  ⟨.nil, rfl, rfl, rfl⟩

theorem endsStatements_brace (h : t.Lexical) (htext : t.text = "\x7d") :
    EndsStatements (t :: rest) := by
  have hkind := h.kind_of_text (c := '\x7d') rfl htext
  refine ⟨endsExpression_mark (c := '\x7d') h htext (by decide), ?_, ?_, ?_⟩
  · simp [htext]
  · simp [hkind]
  · simp [opensStatement, htext]

/-- Line ends in front of statements are skipped. -/
theorem reads_newlines {forms : List ValueForm} {lines : List Token}
    (hlines : ∀ t ∈ lines, t.kind = .newline) (h : Reads forms .statements ts ns rest) :
    Reads forms .statements (lines ++ ts) ns rest := by
  induction lines with
  | nil => exact h
  | cons t lines ih =>
    obtain ⟨ht, hlines⟩ := List.forall_mem_cons.1 hlines
    exact .newline ht (ih hlines)

/-- Statements are read back if each of them is. -/
theorem reads_statements
    (hns : ∀ n ∈ ns, ∀ ts, Written n ts → (∀ t ∈ ts, t.Lexical) → ReadsBack n ts .expression)
    (hw : WrittenStatements ns ts) (hlex : ∀ t ∈ ts, t.Lexical) (hrest : EndsStatements rest) :
    ∃ ns', Node.equalAll ns' ns = true ∧
      Reads standardForms .statements (ts ++ rest) ns' rest := by
  induction ns generalizing ts with
  | nil =>
    cases hw
    exact ⟨[], rfl, .noStatement hrest.line hrest.statement⟩
  | cons n ns ih =>
    obtain ⟨hn, hns⟩ := List.forall_mem_cons.1 hns
    cases hw with
    | last h =>
      obtain ⟨n', heq, hread⟩ := hn ts h hlex rest hrest.toEndsExpression
      have hopens := hread.opens rfl (by simp) hlex
      refine ⟨[n'], by rw [Node.equalAll, heq]; rfl, ?_⟩
      exact .statement hopens.line hopens.statement hread
        (.noSemicolon hrest.semicolon (.noStatement hrest.line hrest.statement))
    | @semicolon _ m ns t ts us h ht hw =>
      obtain ⟨hts, hus⟩ := List.forall_mem_append.1 hlex
      obtain ⟨htlex, hus⟩ := List.forall_mem_cons.1 hus
      obtain ⟨ns', heqs, hreads⟩ := ih hns hw hus
      have htext := text_of_mark ht
      obtain ⟨n', heq, hread⟩ := hn ts h hts (t :: (us ++ rest))
        (endsExpression_mark (c := ';') htlex htext (by decide))
      have hopens := hread.opens rfl (by simp) hts
      rw [List.append_assoc]
      refine ⟨n' :: ns', by rw [Node.equalAll, heq, heqs]; rfl, ?_⟩
      exact .statement hopens.line hopens.statement hread (.semicolon htext hreads)
    | @newlines _ m ns lines ts us h hne hlines hw =>
      obtain ⟨htslines, hus⟩ := List.forall_mem_append.1 hlex
      obtain ⟨hts, hlineslex⟩ := List.forall_mem_append.1 htslines
      obtain ⟨ns', heqs, hreads⟩ := ih hns hw hus
      obtain ⟨t, lines, rfl⟩ := List.exists_cons_of_ne_nil hne
      have htlex := hlineslex t List.mem_cons_self
      have htkind := hlines t List.mem_cons_self
      have hsemi : t.text ≠ ";" := fun htext =>
        absurd (htkind.symm.trans (htlex.kind_of_text (c := ';') rfl htext)) (by decide)
      obtain ⟨n', heq, hread⟩ := hn ts h hts (t :: lines ++ (us ++ rest))
        (endsExpression_newline htlex htkind)
      have hopens := hread.opens rfl (by simp) hts
      rw [List.append_assoc, List.append_assoc]
      refine ⟨n' :: ns', by rw [Node.equalAll, heq, heqs]; rfl, ?_⟩
      refine .statement hopens.line hopens.statement hread (.noSemicolon ?_ ?_)
      · simpa using hsemi
      · exact reads_newlines hlines hreads

theorem equal_branch {k : Node.Kind} {cs cs' : List Node} {start start' : Option Int}
    (h : Node.equalAll cs cs' = true) :
    (Node.branch k cs start).equal (.branch k cs' start') = true := by
  rw [Node.equal, h, decide_eq_true rfl, Bool.and_self]

theorem equalAll_singleton {n' : Node} (h : n'.equal n = true) :
    Node.equalAll [n'] [n] = true := by
  rw [Node.equalAll, h]
  rfl

theorem equal_binary {lhs lhs' rhs rhs' : Node} {start place : Option Int}
    (hl : lhs'.equal lhs = true) (hr : rhs'.equal rhs = true) :
    (binaryNode lhs' t rhs').equal
      (.branch .binary [lhs, operatorLeaf t.text place, rhs] start) = true := by
  refine equal_branch ?_
  rw [Node.equalAll, Node.equalAll, hl, Bool.true_and]
  exact Bool.and_eq_true_iff.2 ⟨equal_leaf (Payload.equal_str _), equalAll_singleton hr⟩

theorem equal_callNode {callee callee' : Node} {args args' : List Node} {start : Option Int}
    (h : callee'.equal callee = true) (hargs : Node.equalAll args' args = true) (hne : args ≠ []) :
    (callNode callee' args').equal (.branch .functionCall (callee :: args) start) = true := by
  cases args' with
  | nil =>
    cases args with
    | nil => exact absurd rfl hne
    | cons => exact absurd hargs (by simp [Node.equalAll])
  | cons arg' args' =>
    refine equal_branch ?_
    rw [Node.equalAll, h, hargs, Bool.and_self]

theorem nextForm_of_parens (h : Reads standardForms .parens ts ns rest) :
    nextForm standardForms ts = some .parens := by
  cases h with
  | parens ht => exact formAt_openParen ht

theorem kind_of_colon (h : t.Lexical) (ht : t.terminal = .mark ":") : t.kind = .quote := by
  have htext := text_of_mark ht
  have hkind : ∀ k ∈ Token.Kind.all, k.leads ':' = true → k = .quote ∨ k = .rightOperator := by
    decide
  rcases hkind t.kind (Token.Kind.mem_all _) (h.leads_of_text (l := []) htext) with hk | hk
  · exact hk
  · rcases h.text_of_rightOperator hk with htext' | htext'
    · exact absurd (htext.symm.trans htext') (by decide)
    · exact absurd (htext.symm.trans htext') (by decide)

theorem kind_of_dollar (h : t.Lexical) (ht : t.terminal = .mark "$") : t.kind = .unquote := by
  have hkind : ∀ k ∈ Token.Kind.all, k.leads '$' = true → k = .unquote ∨ k = .ident := by
    decide
  rcases hkind t.kind (Token.Kind.mem_all _) (h.leads_of_text (l := []) (text_of_mark ht)) with
    hk | hk
  · exact hk
  · rw [Token.terminal, hk] at ht
    cases ht

theorem kind_of_leftOperator {op : String} (h : t.Lexical) (hop : isLeftOperator op = true)
    (ht : t.terminal = .leaf .operator (.str op)) : t.kind = .leftOperator := by
  obtain ⟨hk | hk, rfl⟩ := kind_of_operator ht
  · exact hk
  · rcases h.text_of_rightOperator hk with htext | htext
    · exact absurd (htext ▸ hop) (by decide)
    · exact absurd (htext ▸ hop) (by decide)

theorem kind_of_rightOperator {op : String} (h : t.Lexical) (hop : isRightOperator op = true)
    (ht : t.terminal = .leaf .operator (.str op)) : t.kind = .rightOperator := by
  obtain ⟨hk | hk, rfl⟩ := kind_of_operator ht
  · have hall := (h.text_of_leftOperator hk).2
    rw [isRightOperator, Bool.or_eq_true, decide_eq_true_eq, decide_eq_true_eq] at hop
    rcases hop with htext | htext
    · exact absurd (hall ':' (by rw [htext]; decide)) (by decide)
    · exact absurd (hall ':' (by rw [htext]; decide)) (by decide)
  · exact hk

/-- **Every tree of the grammar is read back, however it is written.** -/
theorem HasShape.readsBack {c : Category} (h : HasShape c n) (hw : Written n ts)
    (hlex : ∀ t ∈ ts, t.Lexical) : ReadsBack n ts c := by
  induction h generalizing ts with
  | identifier =>
    cases hw with
    | leaf ht => exact fun rest _ => reads_leaf (hlex _ List.mem_cons_self) ht .identifier rest
  | integer hlow hhigh =>
    cases hw with
    | leaf ht =>
      exact fun rest _ => reads_leaf (hlex _ List.mem_cons_self) ht (.integer hlow hhigh) rest
  | float =>
    cases hw with
    | leaf ht => exact fun rest _ => reads_leaf (hlex _ List.mem_cons_self) ht .float rest
  | string =>
    cases hw with
    | leaf ht => exact fun rest _ => reads_leaf (hlex _ List.mem_cons_self) ht .string rest
  | parens h ih =>
    cases hw with
    | @parens _ _ t u ts ht hw hu =>
      obtain ⟨htlex, hlex⟩ := List.forall_mem_cons.1 hlex
      obtain ⟨hts, hulex⟩ := List.forall_mem_append.1 hlex
      intro rest
      have hclose : EndsExpression (u :: rest) :=
        endsExpression_mark (c := ')') (List.forall_mem_singleton.1 hulex) (text_of_mark hu)
          (by decide)
      obtain ⟨n', heq, hread⟩ := ih hw hts (u :: rest) hclose
      refine ⟨_, equal_branch (equalAll_singleton heq), .parens (text_of_mark ht) ?_
        (text_of_mark hu)⟩
      simpa using hread
  | group h ih =>
    intro rest _
    obtain ⟨n', heq, hread⟩ := ih hw hlex rest
    exact ⟨n', heq, .group (nextForm_of_parens hread) hread⟩
  | block h ih =>
    cases hw with
    | @block _ _ t u ts ht hw hu =>
      obtain ⟨htlex, hlex⟩ := List.forall_mem_cons.1 hlex
      obtain ⟨hts, hulex⟩ := List.forall_mem_append.1 hlex
      intro rest _
      have hclose : EndsStatements (u :: rest) :=
        endsStatements_brace (List.forall_mem_singleton.1 hulex) (text_of_mark hu)
      obtain ⟨ns', heqs, hreads⟩ := reads_statements (fun n hn ts => ih n hn) hw hts hclose
      have hform := formAt_openBrace (text_of_mark ht)
      refine ⟨_, equal_branch heqs,
        .block hform (u := u) (?_ : Reads _ _ _ ns' _) (text_of_mark hu)⟩
      simpa using hreads
  | quoted h ih =>
    cases hw with
    | @quoted _ _ t ts ht hw =>
      obtain ⟨htlex, hts⟩ := List.forall_mem_cons.1 hlex
      intro rest hpoint
      obtain ⟨n', heq, hgo⟩ := ih hw hts rest (fun _ => hpoint rfl)
      have hk := kind_of_colon htlex ht
      have hform := formAt_of_formOfKind htlex hk rfl
      exact ⟨_, equal_branch (equalAll_singleton heq),
        .quoted hform (hgo _ _ (.noProperty (hpoint rfl)))⟩
  | unquote h ih =>
    cases hw with
    | @unquote _ _ t ts ht hw =>
      obtain ⟨htlex, hts⟩ := List.forall_mem_cons.1 hlex
      intro rest _
      obtain ⟨n', heq, hread⟩ := ih hw hts rest
      have hk := kind_of_dollar htlex ht
      have hform := formAt_of_formOfKind htlex hk rfl
      exact ⟨_, equal_branch (equalAll_singleton heq), .unquote hform hread⟩
  | noProperty h ih =>
    intro rest hpoint
    obtain ⟨n', heq, hread⟩ := ih hw hlex rest hpoint
    exact ⟨n', heq, fun ns r h => .propertyOrValue hread h⟩
  | property h hbase ih =>
    cases hw with
    | @property _ _ _ t ts us hwbase ht hname =>
      cases hname with
      | @leaf _ _ _ u hu =>
        obtain ⟨hts, hus⟩ := List.forall_mem_append.1 hlex
        obtain ⟨hk, rfl⟩ := kind_of_name hu
        intro rest _
        obtain ⟨base', heq, hgo⟩ := ih hwbase hts (t :: u :: rest) (fun hq => absurd hq hbase)
        refine ⟨propertyNode base' u, equal_branch ?_, fun ns r h => ?_⟩
        · rw [Node.equalAll, heq, Bool.true_and]
          exact equalAll_singleton (equal_leaf (Payload.equal_str _))
        · have hread := hgo ns r (.property (text_of_mark ht) hk h)
          simpa using hread
  | noOperand h ih =>
    intro rest hpoint
    obtain ⟨n', heq, hgo⟩ := ih hw hlex rest (fun _ => hpoint)
    exact ⟨n', n', rest, heq, hgo _ _ (.noProperty hpoint), fun _ _ h => h, .inl ⟨rfl, rfl⟩⟩
  | operand hl hop hr ihl ihr =>
    cases hw with
    | @binary _ _ _ _ ts us vs hwl hwop hwr =>
      cases hwop with
      | @leaf _ _ _ t ht =>
        obtain ⟨htsus, hvs⟩ := List.forall_mem_append.1 hlex
        obtain ⟨hts, hus⟩ := List.forall_mem_append.1 htsus
        have htlex := List.forall_mem_singleton.1 hus
        have hk := kind_of_leftOperator htlex hop ht
        obtain ⟨-, rfl⟩ := kind_of_operator ht
        intro rest hpoint
        obtain ⟨rhs', heqr, hgor⟩ := ihr hwr hvs rest (fun _ => hpoint)
        have hrhs := hgor _ _ (.noProperty hpoint)
        have hnopoint : begins (Token.hasText ".") (t :: (vs ++ rest)) = false := by
          rw [begins_cons, Token.hasText_eq_false]
          exact fun htext => absurd (hk.symm.trans (htlex.kind_of_text (c := '.') rfl htext))
            (by decide)
        obtain ⟨lhs', first, mid, heql, hfirst, hgo, hcase⟩ := ihl hwl hts _ hnopoint
        refine ⟨binaryNode lhs' t rhs', first, mid, ?_, ?_, ?_, .inr ?_⟩
        · exact equal_binary heql heqr
        · simpa using hfirst
        · exact fun ns r h => hgo ns r (.operand hk hrhs h)
        · rcases hcase with ⟨-, rfl⟩ | hcase
          · simpa using hk
          · exact hcase
  | noCall h ih =>
    intro rest hrest
    obtain ⟨n', first, mid, heq, hfirst, hgo, hcase⟩ := ih hw hlex rest hrest.point
    refine ⟨n', heq, ?_⟩
    rcases hcase with ⟨rfl, rfl⟩ | hcase
    · exact .call hfirst hrest.operator (.noArgument hrest.call)
    · exact .operation hfirst hcase (hgo _ _ (.noOperand hrest.operator))
  | call h hne hargs ih ihargs =>
    cases hw with
    | @call callee args _ ts us hcallee hwargs =>
      obtain ⟨hts, hus⟩ := List.forall_mem_append.1 hlex
      intro rest hrest
      obtain ⟨args', heqs, hreads⟩ :=
        reads_arguments (fun arg harg ts => ihargs arg harg) hwargs hus hrest
      obtain ⟨hpoint, hop, -⟩ := arguments_quiet hreads hus hrest
      obtain ⟨callee', heq, hgo⟩ := ih hcallee hts (us ++ rest) (fun _ => hpoint)
      rw [List.append_assoc]
      refine ⟨_, ?_, .call (hgo _ _ (.noProperty hpoint)) hop hreads⟩
      exact equal_callNode heq heqs hne
  | plain h ih =>
    intro rest hrest
    obtain ⟨n', heq, hread⟩ := ih hw hlex rest hrest.toEnds
    exact ⟨n', heq, .plain hread hrest.rightOperator⟩
  | nested hl hop hr ihl ihr =>
    cases hw with
    | @binary _ _ _ _ ts us vs hwl hwop hwr =>
      cases hwop with
      | @leaf _ _ _ t ht =>
        obtain ⟨htsus, hvs⟩ := List.forall_mem_append.1 hlex
        obtain ⟨hts, hus⟩ := List.forall_mem_append.1 htsus
        have htlex := List.forall_mem_singleton.1 hus
        have hk := kind_of_rightOperator htlex hop ht
        obtain ⟨-, rfl⟩ := kind_of_operator ht
        intro rest hrest
        obtain ⟨rhs', heqr, hreadr⟩ := ihr hwr hvs rest hrest
        obtain ⟨lhs', heql, hreadl⟩ := ihl hwl hts (t :: (vs ++ rest)) (ends_rightOperator htlex hk)
        refine ⟨_, equal_binary heql heqr, ?_⟩
        have hread := Reads.nested hreadl hk hreadr
        simpa using hread

/-! ## Programs -/

/-- **Parsing undoes writing.**  However a list of expressions of the grammar is written as tokens
that the lexer can cut, a parse of these tokens succeeds, consumes them all, and makes a program of
equal expressions. -/
theorem parse_written (hshape : ∀ n ∈ ns, HasShape .expression n) (hw : WrittenStatements ns ts)
    (hlex : ∀ t ∈ ts, t.Lexical) :
    ∃ ns' s, parseTokens .standard .program ts = .ok (.branch .program ns' none) s ∧
      s.cursor = ts.length ∧ Node.equalAll ns' ns = true := by
  obtain ⟨ns', heqs, hreads⟩ :=
    reads_statements (fun n hn ts => (hshape n hn).readsBack) hw hlex .nil
  rw [List.append_nil] at hreads
  obtain ⟨s, hs, hahead⟩ := parseTokens_of_reads hreads
  obtain ⟨htokens, -⟩ := reads_of_parseTokens hs
  refine ⟨ns', s, hs, ?_, heqs⟩
  rw [← htokens, State.tokens, hahead, List.append_nil, List.length_reverse, State.cursor]

/-- A call with a comma, a line end, and an assignment, of which no node has a start. -/
theorem parse_written_lines :
    ∃ ns' s, parseTokens .standard .program
        [⟨.ident, "f", 0⟩, ⟨.integer, "1", 2⟩, ⟨.punctuation, ",", 3⟩, ⟨.quote, ":", 5⟩,
          ⟨.ident, "x", 6⟩, ⟨.newline, "\n", 7⟩, ⟨.ident, "y", 8⟩, ⟨.rightOperator, ":=", 10⟩,
          ⟨.ident, "z", 13⟩] = .ok (.branch .program ns' none) s ∧ s.cursor = 9 ∧
      Node.equalAll ns'
        [.branch .functionCall [.leaf .identifier (.str "f") none, .leaf .integer (.int 1) none,
            .branch .quoted [.leaf .identifier (.str "x") none] none] none,
          .branch .binary [.leaf .identifier (.str "y") none, operatorLeaf ":=" none,
            .leaf .identifier (.str "z") none] none] = true := by
  have hname {name : String} : HasShape .propertyOrValue (.leaf .identifier (.str name) none) :=
    .noProperty .identifier
  have hone : HasShape .propertyOrValue (.leaf .integer (.int 1) none) :=
    .noProperty (.integer (by decide) (by decide))
  have hcall : Written
      (.branch .functionCall [.leaf .identifier (.str "f") none, .leaf .integer (.int 1) none,
        .branch .quoted [.leaf .identifier (.str "x") none] none] none)
      ([⟨.ident, "f", 0⟩] ++ ([⟨.integer, "1", 2⟩] ++ ⟨.punctuation, ",", 3⟩ ::
        ([⟨.quote, ":", 5⟩, ⟨.ident, "x", 6⟩] ++ []))) :=
    .call (.leaf rfl) (.comma (.leaf rfl) rfl (.plain (.quoted rfl (.leaf rfl)) .nil))
  have hassign : Written
      (.branch .binary [.leaf .identifier (.str "y") none, operatorLeaf ":=" none,
        .leaf .identifier (.str "z") none] none)
      ([⟨.ident, "y", 8⟩] ++ [⟨.rightOperator, ":=", 10⟩] ++ [⟨.ident, "z", 13⟩]) :=
    .binary (.leaf rfl) (.leaf rfl) (.leaf rfl)
  have hline : [(⟨.newline, "\n", 7⟩ : Token)] ≠ [] ∧
      ∀ t ∈ [(⟨.newline, "\n", 7⟩ : Token)], t.kind = .newline := by simp
  refine parse_written (List.forall_mem_cons.2 ⟨?_, List.forall_mem_singleton.2 ?_⟩)
    (.newlines hcall hline.1 hline.2 (.last hassign))
    (Token.lexical_of_tokenize (?_ : Token.tokenize "f 1, :x\ny := z" = _))
  · refine .plain (.call hname (by simp) (List.forall_mem_cons.2 ⟨.noOperand hone, ?_⟩))
    exact List.forall_mem_singleton.2 (.noOperand (.noProperty (.quoted hname)))
  · exact .nested (.noCall (.noOperand hname)) (by decide) (.plain (.noCall (.noOperand hname)))
  · decide +kernel

end Juxta.Parser
