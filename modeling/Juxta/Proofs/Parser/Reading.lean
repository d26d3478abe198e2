import Juxta.Parser.Grammar

/-!
# The grammar as a relation

The rules of `Juxta.Parser.Grammar` are programs: they carry a cursor, a trace and a bound for the
number of tokens ahead.  This file states the grammar without any of these, as two relations between
a token list and the part of it that is left over.  Everything that is proved about parsing is
proved about the relations; `Juxta.Proofs.Parser.Agreement` ties them to the programs.

Every rule of the relations looks at one token at most before it decides, the one at the front.

## What is here

* `Phrase` — what can be read: the rules of the grammar, and what may follow a part of a phrase that
  has been read already.
* `Reads forms phrase input nodes rest` — the phrase stands at the front of `input`, its trees are
  `nodes`, and `rest` comes after it.  All phrases but the repeated ones have one tree.
* `Stuck forms phrase input expected rest` — reading the phrase fails in front of `rest`, where
  something else was expected.
* `Reads.suffix`, `Stuck.suffix`, `Reads.length_lt` — reading goes forward, over at least one token
  where a phrase cannot be empty.
* `Reads.unique`, `Reads.not_stuck`, `Stuck.unique` — reading is deterministic.
-/

set_option autoImplicit false
namespace Juxta

/-! ## Questions about the next token -/

/-- Whether a token has the given text, whatever its class. -/
@[grind] def Token.hasText (text : String) (t : Token) : Bool := t.text = text

/-- Whether a token is of the given class. -/
@[grind] def Token.hasKind (kind : Token.Kind) (t : Token) : Bool := t.kind = kind

@[simp] theorem Token.hasText_eq_true {text : String} {t : Token} :
    t.hasText text = true ↔ t.text = text := decide_eq_true_iff

@[simp] theorem Token.hasText_eq_false {text : String} {t : Token} :
    t.hasText text = false ↔ t.text ≠ text := decide_eq_false_iff_not

@[simp] theorem Token.hasKind_eq_true {kind : Token.Kind} {t : Token} :
    t.hasKind kind = true ↔ t.kind = kind := decide_eq_true_iff

@[simp] theorem Token.hasKind_eq_false {kind : Token.Kind} {t : Token} :
    t.hasKind kind = false ↔ t.kind ≠ kind := decide_eq_false_iff_not

namespace Parser

/-- Whether there is a first token and it satisfies `p`. -/
def begins (p : Token → Bool) : List Token → Bool
  | [] => false
  | t :: _ => p t

@[simp, grind =] theorem begins_nil (p : Token → Bool) : begins p [] = false := rfl

@[simp, grind =] theorem begins_cons (p : Token → Bool) (t : Token) (ts : List Token) :
    begins p (t :: ts) = p t := rfl

theorem exists_cons_of_begins {p : Token → Bool} {ts : List Token} (h : begins p ts = true) :
    ∃ t ts', ts = t :: ts' ∧ p t = true := by
  cases ts with
  | nil => exact absurd h (by simp)
  | cons t ts' => exact ⟨t, ts', rfl, h⟩

/-- Whether statements go on with a token, line ends aside: only a closing brace ends them. -/
@[grind] def opensStatement (t : Token) : Bool := t.text ≠ "\x7d"

/-- Whether a form of a value is the one that a token leads. -/
def ValueForm.leads : ValueForm → Token → Bool
  | parens => Token.hasText "("
  | block => Token.hasText "\x7b"
  | identifier => Token.hasKind .ident
  | integer => Token.hasKind .integer
  | float => Token.hasKind .float
  | string => Token.hasKind .string
  | quoted => Token.hasKind .quote
  | unquote => Token.hasKind .unquote

/-- The form of the value that a token leads, if it leads one: the first that applies. -/
def formAt (forms : List ValueForm) (t : Token) : Option ValueForm :=
  forms.find? (·.leads t)

/-- The form of the value that the first token leads. -/
def nextForm (forms : List ValueForm) : List Token → Option ValueForm
  | [] => none
  | t :: _ => formAt forms t

@[simp, grind =] theorem nextForm_nil (forms : List ValueForm) : nextForm forms [] = none := rfl

@[simp, grind =] theorem nextForm_cons (forms : List ValueForm) (t : Token) (ts : List Token) :
    nextForm forms (t :: ts) = formAt forms t := rfl

/-- The form that is chosen is one that applies. -/
theorem begins_of_nextForm {forms : List ValueForm} {form : ValueForm} {ts : List Token}
    (h : nextForm forms ts = some form) : begins form.leads ts = true := by
  cases ts with
  | nil => cases h
  | cons t ts =>
    rw [nextForm_cons, formAt] at h
    simpa using List.find?_some h

/-- The leaf that a form makes of a token by itself, unless the token is too large a number. -/
@[grind] def ValueForm.leaf? : ValueForm → Token → Option Node
  | identifier, t => some (textLeaf .identifier t)
  | integer, t => if maxInteger < integerOf t then none else some (integerLeaf t)
  | float, t => some (floatLeaf t)
  | string, t => some (stringLeaf t)
  | _, _ => none

/-! ## Phrases -/

/-- What can be read.  Where a phrase goes on from a tree that has been read before it, it holds
that tree. -/
inductive Phrase where
  | value
  | parens
  /-- The property accesses after a value. -/
  | properties (base : Node)
  | propertyOrValue
  /-- The operators that chain to the left, with their right operands, after a first operand. -/
  | operands (lhs : Node)
  | chain
  /-- The arguments of a call that are still to come. -/
  | arguments
  /-- What follows an argument: perhaps a comma, and further arguments. -/
  | afterArgument
  | intermediate
  | expression
  /-- The statements that are still to come. -/
  | statements
  /-- What follows a statement: perhaps a semicolon, and further statements. -/
  | afterStatement

/-! ## Reading -/

/-- `Reads forms phrase input nodes rest`: the phrase can be read from the front of `input`, with
the given trees, and leaves `rest`. -/
inductive Reads (forms : List ValueForm) : Phrase → List Token → List Node → List Token → Prop
  | leaf {t : Token} {ts : List Token} {form : ValueForm} {n : Node}
      (hform : formAt forms t = some form) (hleaf : form.leaf? t = some n) :
      Reads forms .value (t :: ts) [n] ts
  | group {input rest : List Token} {ns : List Node}
      (hform : nextForm forms input = some .parens) (h : Reads forms .parens input ns rest) :
      Reads forms .value input ns rest
  | block {t u : Token} {ts rest : List Token} {ns : List Node}
      (hform : formAt forms t = some .block) (h : Reads forms .statements ts ns (u :: rest))
      (hu : u.text = "\x7d") : Reads forms .value (t :: ts) [nodeAt .block t ns] rest
  | quoted {t : Token} {ts rest : List Token} {n : Node}
      (hform : formAt forms t = some .quoted) (h : Reads forms .propertyOrValue ts [n] rest) :
      Reads forms .value (t :: ts) [nodeAt .quoted t [n]] rest
  | unquote {t : Token} {ts rest : List Token} {n : Node}
      (hform : formAt forms t = some .unquote) (h : Reads forms .parens ts [n] rest) :
      Reads forms .value (t :: ts) [nodeAt .unquote t [n]] rest
  | parens {t u : Token} {ts rest : List Token} {n : Node} (ht : t.text = "(")
      (h : Reads forms .expression ts [n] (u :: rest)) (hu : u.text = ")") :
      Reads forms .parens (t :: ts) [nodeAt .parenthesis t [n]] rest
  | noProperty {base : Node} {input : List Token}
      (hdot : begins (Token.hasText ".") input = false) :
      Reads forms (.properties base) input [base] input
  | property {base : Node} {t u : Token} {ts rest : List Token} {ns : List Node}
      (ht : t.text = ".") (hu : u.kind = .ident)
      (h : Reads forms (.properties (propertyNode base u)) ts ns rest) :
      Reads forms (.properties base) (t :: u :: ts) ns rest
  | propertyOrValue {input mid rest : List Token} {base : Node} {ns : List Node}
      (hbase : Reads forms .value input [base] mid)
      (h : Reads forms (.properties base) mid ns rest) :
      Reads forms .propertyOrValue input ns rest
  | noOperand {lhs : Node} {input : List Token}
      (hop : begins (Token.hasKind .leftOperator) input = false) :
      Reads forms (.operands lhs) input [lhs] input
  | operand {lhs rhs : Node} {op : Token} {ts mid rest : List Token} {ns : List Node}
      (hop : op.kind = .leftOperator) (hrhs : Reads forms .propertyOrValue ts [rhs] mid)
      (h : Reads forms (.operands (binaryNode lhs op rhs)) mid ns rest) :
      Reads forms (.operands lhs) (op :: ts) ns rest
  | chain {input mid rest : List Token} {first : Node} {ns : List Node}
      (hfirst : Reads forms .propertyOrValue input [first] mid)
      (h : Reads forms (.operands first) mid ns rest) : Reads forms .chain input ns rest
  | noArgument {input : List Token} (hend : begins (!endsCall ·) input = false) :
      Reads forms .arguments input [] input
  | argument {input mid rest : List Token} {arg : Node} {args : List Node}
      (hmore : begins (!endsCall ·) input = true) (harg : Reads forms .chain input [arg] mid)
      (h : Reads forms .afterArgument mid args rest) :
      Reads forms .arguments input (arg :: args) rest
  | comma {t : Token} {ts rest : List Token} {args : List Node} (ht : t.text = ",")
      (h : Reads forms .arguments ts args rest) : Reads forms .afterArgument (t :: ts) args rest
  | noComma {input rest : List Token} {args : List Node}
      (hcomma : begins (Token.hasText ",") input = false)
      (h : Reads forms .arguments input args rest) : Reads forms .afterArgument input args rest
  | operation {input mid rest : List Token} {first : Node} {ns : List Node}
      (hfirst : Reads forms .propertyOrValue input [first] mid)
      (hop : begins (Token.hasKind .leftOperator) mid = true)
      (h : Reads forms (.operands first) mid ns rest) : Reads forms .intermediate input ns rest
  | call {input mid rest : List Token} {first : Node} {args : List Node}
      (hfirst : Reads forms .propertyOrValue input [first] mid)
      (hop : begins (Token.hasKind .leftOperator) mid = false)
      (h : Reads forms .arguments mid args rest) :
      Reads forms .intermediate input [callNode first args] rest
  | plain {input rest : List Token} {n : Node} (h : Reads forms .intermediate input [n] rest)
      (hop : begins (Token.hasKind .rightOperator) rest = false) :
      Reads forms .expression input [n] rest
  | nested {input mid rest : List Token} {lhs rhs : Node} {op : Token}
      (hlhs : Reads forms .intermediate input [lhs] (op :: mid)) (hop : op.kind = .rightOperator)
      (h : Reads forms .expression mid [rhs] rest) :
      Reads forms .expression input [binaryNode lhs op rhs] rest
  | newline {t : Token} {ts rest : List Token} {ns : List Node} (ht : t.kind = .newline)
      (h : Reads forms .statements ts ns rest) : Reads forms .statements (t :: ts) ns rest
  | noStatement {input : List Token} (hline : begins (Token.hasKind .newline) input = false)
      (hend : begins opensStatement input = false) :
      Reads forms .statements input [] input
  | statement {input mid rest : List Token} {n : Node} {ns : List Node}
      (hline : begins (Token.hasKind .newline) input = false)
      (hmore : begins opensStatement input = true)
      (hn : Reads forms .expression input [n] mid) (h : Reads forms .afterStatement mid ns rest) :
      Reads forms .statements input (n :: ns) rest
  | semicolon {t : Token} {ts rest : List Token} {ns : List Node} (ht : t.text = ";")
      (h : Reads forms .statements ts ns rest) : Reads forms .afterStatement (t :: ts) ns rest
  | noSemicolon {input rest : List Token} {ns : List Node}
      (hsemi : begins (Token.hasText ";") input = false)
      (h : Reads forms .statements input ns rest) : Reads forms .afterStatement input ns rest

/-! ## Getting stuck -/

/-- `Stuck forms phrase input expected rest`: reading the phrase from the front of `input` fails in
front of `rest`, where something else was expected. -/
inductive Stuck (forms : List ValueForm) : Phrase → List Token → String → List Token → Prop
  | noValue {input : List Token} (h : nextForm forms input = none) :
      Stuck forms .value input "value" input
  | integer {t : Token} {ts : List Token} (hform : formAt forms t = some .integer)
      (h : maxInteger < integerOf t) :
      Stuck forms .value (t :: ts) "64-bit integer" (t :: ts)
  | group {input rest : List Token} {x : String}
      (hform : nextForm forms input = some .parens) (h : Stuck forms .parens input x rest) :
      Stuck forms .value input x rest
  | block {t : Token} {ts rest : List Token} {x : String}
      (hform : formAt forms t = some .block) (h : Stuck forms .statements ts x rest) :
      Stuck forms .value (t :: ts) x rest
  | openBlock {t : Token} {ts rest : List Token} {ns : List Node}
      (hform : formAt forms t = some .block) (hns : Reads forms .statements ts ns rest)
      (h : begins (Token.hasText "\x7d") rest = false) :
      Stuck forms .value (t :: ts) (Text.inQuotes "\x7d") rest
  | quoted {t : Token} {ts rest : List Token} {x : String}
      (hform : formAt forms t = some .quoted) (h : Stuck forms .propertyOrValue ts x rest) :
      Stuck forms .value (t :: ts) x rest
  | unquote {t : Token} {ts rest : List Token} {x : String}
      (hform : formAt forms t = some .unquote) (h : Stuck forms .parens ts x rest) :
      Stuck forms .value (t :: ts) x rest
  | noParens {input : List Token} (h : begins (Token.hasText "(") input = false) :
      Stuck forms .parens input (Text.inQuotes "(") input
  | parens {t : Token} {ts rest : List Token} {x : String} (ht : t.text = "(")
      (h : Stuck forms .expression ts x rest) : Stuck forms .parens (t :: ts) x rest
  | openParens {t : Token} {ts rest : List Token} {n : Node} (ht : t.text = "(")
      (hn : Reads forms .expression ts [n] rest) (h : begins (Token.hasText ")") rest = false) :
      Stuck forms .parens (t :: ts) (Text.inQuotes ")") rest
  | noName {base : Node} {t : Token} {ts : List Token} (ht : t.text = ".")
      (h : begins (Token.hasKind .ident) ts = false) :
      Stuck forms (.properties base) (t :: ts) Token.Kind.ident.name ts
  | property {base : Node} {t u : Token} {ts rest : List Token} {x : String}
      (ht : t.text = ".") (hu : u.kind = .ident)
      (h : Stuck forms (.properties (propertyNode base u)) ts x rest) :
      Stuck forms (.properties base) (t :: u :: ts) x rest
  | base {input rest : List Token} {x : String} (h : Stuck forms .value input x rest) :
      Stuck forms .propertyOrValue input x rest
  | properties {input mid rest : List Token} {base : Node} {x : String}
      (hbase : Reads forms .value input [base] mid)
      (h : Stuck forms (.properties base) mid x rest) :
      Stuck forms .propertyOrValue input x rest
  | rightOperand {lhs : Node} {op : Token} {ts rest : List Token} {x : String}
      (hop : op.kind = .leftOperator) (h : Stuck forms .propertyOrValue ts x rest) :
      Stuck forms (.operands lhs) (op :: ts) x rest
  | operand {lhs rhs : Node} {op : Token} {ts mid rest : List Token} {x : String}
      (hop : op.kind = .leftOperator) (hrhs : Reads forms .propertyOrValue ts [rhs] mid)
      (h : Stuck forms (.operands (binaryNode lhs op rhs)) mid x rest) :
      Stuck forms (.operands lhs) (op :: ts) x rest
  | firstOperand {input rest : List Token} {x : String}
      (h : Stuck forms .propertyOrValue input x rest) : Stuck forms .chain input x rest
  | chain {input mid rest : List Token} {first : Node} {x : String}
      (hfirst : Reads forms .propertyOrValue input [first] mid)
      (h : Stuck forms (.operands first) mid x rest) : Stuck forms .chain input x rest
  | firstArgument {input rest : List Token} {x : String}
      (hmore : begins (!endsCall ·) input = true) (h : Stuck forms .chain input x rest) :
      Stuck forms .arguments input x rest
  | argument {input mid rest : List Token} {arg : Node} {x : String}
      (hmore : begins (!endsCall ·) input = true) (harg : Reads forms .chain input [arg] mid)
      (h : Stuck forms .afterArgument mid x rest) : Stuck forms .arguments input x rest
  | comma {t : Token} {ts rest : List Token} {x : String} (ht : t.text = ",")
      (h : Stuck forms .arguments ts x rest) : Stuck forms .afterArgument (t :: ts) x rest
  | noComma {input rest : List Token} {x : String}
      (hcomma : begins (Token.hasText ",") input = false)
      (h : Stuck forms .arguments input x rest) : Stuck forms .afterArgument input x rest
  | callee {input rest : List Token} {x : String}
      (h : Stuck forms .propertyOrValue input x rest) : Stuck forms .intermediate input x rest
  | operation {input mid rest : List Token} {first : Node} {x : String}
      (hfirst : Reads forms .propertyOrValue input [first] mid)
      (hop : begins (Token.hasKind .leftOperator) mid = true)
      (h : Stuck forms (.operands first) mid x rest) : Stuck forms .intermediate input x rest
  | call {input mid rest : List Token} {first : Node} {x : String}
      (hfirst : Reads forms .propertyOrValue input [first] mid)
      (hop : begins (Token.hasKind .leftOperator) mid = false)
      (h : Stuck forms .arguments mid x rest) : Stuck forms .intermediate input x rest
  | lhs {input rest : List Token} {x : String} (h : Stuck forms .intermediate input x rest) :
      Stuck forms .expression input x rest
  | nested {input mid rest : List Token} {lhs : Node} {op : Token} {x : String}
      (hlhs : Reads forms .intermediate input [lhs] (op :: mid)) (hop : op.kind = .rightOperator)
      (h : Stuck forms .expression mid x rest) : Stuck forms .expression input x rest
  | newline {t : Token} {ts rest : List Token} {x : String} (ht : t.kind = .newline)
      (h : Stuck forms .statements ts x rest) : Stuck forms .statements (t :: ts) x rest
  | firstStatement {input rest : List Token} {x : String}
      (hline : begins (Token.hasKind .newline) input = false)
      (hmore : begins opensStatement input = true)
      (h : Stuck forms .expression input x rest) : Stuck forms .statements input x rest
  | statement {input mid rest : List Token} {n : Node} {x : String}
      (hline : begins (Token.hasKind .newline) input = false)
      (hmore : begins opensStatement input = true)
      (hn : Reads forms .expression input [n] mid) (h : Stuck forms .afterStatement mid x rest) :
      Stuck forms .statements input x rest
  | semicolon {t : Token} {ts rest : List Token} {x : String} (ht : t.text = ";")
      (h : Stuck forms .statements ts x rest) : Stuck forms .afterStatement (t :: ts) x rest
  | noSemicolon {input rest : List Token} {x : String}
      (hsemi : begins (Token.hasText ";") input = false)
      (h : Stuck forms .statements input x rest) : Stuck forms .afterStatement input x rest

variable {forms : List ValueForm} {phrase : Phrase} {input rest rest' : List Token}
  {ns ns' : List Node} {x x' : String}

/-! ## Reading goes forward -/

/-- Whether a phrase has at least one token. -/
def Phrase.isSolid : Phrase → Bool
  | value | parens | propertyOrValue | chain | intermediate | expression => true
  | _ => false

theorem Reads.suffix (h : Reads forms phrase input ns rest) : rest <:+ input := by
  induction h with
  | leaf => exact List.suffix_cons _ _
  | group _ _ ih => exact ih
  | block _ _ _ ih => exact ((List.suffix_cons _ _).trans ih).trans (List.suffix_cons _ _)
  | quoted _ _ ih => exact ih.trans (List.suffix_cons _ _)
  | unquote _ _ ih => exact ih.trans (List.suffix_cons _ _)
  | parens _ _ _ ih => exact ((List.suffix_cons _ _).trans ih).trans (List.suffix_cons _ _)
  | noProperty => exact List.suffix_rfl
  | property _ _ _ ih =>
    exact (ih.trans (List.suffix_cons _ _)).trans (List.suffix_cons _ _)
  | propertyOrValue _ _ ihb ih => exact ih.trans ihb
  | noOperand => exact List.suffix_rfl
  | operand _ _ _ ihr ih => exact (ih.trans ihr).trans (List.suffix_cons _ _)
  | chain _ _ ihf ih => exact ih.trans ihf
  | noArgument => exact List.suffix_rfl
  | argument _ _ _ iha ih => exact ih.trans iha
  | comma _ _ ih => exact ih.trans (List.suffix_cons _ _)
  | noComma _ _ ih => exact ih
  | operation _ _ _ ihf ih => exact ih.trans ihf
  | call _ _ _ ihf ih => exact ih.trans ihf
  | plain _ _ ih => exact ih
  | nested _ _ _ ihl ih => exact (ih.trans (List.suffix_cons _ _)).trans ihl
  | newline _ _ ih => exact ih.trans (List.suffix_cons _ _)
  | noStatement => exact List.suffix_rfl
  | statement _ _ _ _ ihn ih => exact ih.trans ihn
  | semicolon _ _ ih => exact ih.trans (List.suffix_cons _ _)
  | noSemicolon _ _ ih => exact ih

theorem Stuck.suffix (h : Stuck forms phrase input x rest) : rest <:+ input := by
  have hread {phrase : Phrase} {input rest : List Token} {ns : List Node}
      (h : Reads forms phrase input ns rest) : rest <:+ input := h.suffix
  induction h with
  | _ => grind [List.IsSuffix.trans, List.suffix_cons]

/-- A phrase that cannot be empty takes at least one token. -/
theorem Reads.length_lt (h : Reads forms phrase input ns rest) (hs : phrase.isSolid = true) :
    rest.length < input.length := by
  have hle {phrase : Phrase} {input rest : List Token} {ns : List Node}
      (h : Reads forms phrase input ns rest) : rest.length ≤ input.length := h.suffix.length_le
  induction h with
  | _ => grind [Phrase.isSolid]

/-- Whether a phrase has exactly one tree. -/
def Phrase.isSingle : Phrase → Bool
  | arguments | afterArgument | statements | afterStatement => false
  | _ => true

theorem Reads.exists_singleton (h : Reads forms phrase input ns rest)
    (hs : phrase.isSingle = true) : ∃ n, ns = [n] := by
  induction h with
  | _ => grind [Phrase.isSingle]

/-! ## Reading is deterministic

Whatever two rules can apply to one phrase, they ask opposite questions about the first token, so
that in each case below the two readings were made by the same rule. -/

/-- A phrase can be read in one way only. -/
theorem Reads.unique (h : Reads forms phrase input ns rest) :
    ∀ {ns' : List Node} {rest' : List Token}, Reads forms phrase input ns' rest' →
      ns = ns' ∧ rest = rest' := by
  induction h with
  | _ =>
    intro ns' rest' h'
    cases h' <;> grind

/-- A phrase that can be read does not get stuck. -/
theorem Reads.not_stuck (h : Reads forms phrase input ns rest) :
    ∀ {x : String} {rest' : List Token}, ¬ Stuck forms phrase input x rest' := by
  have huniq {phrase : Phrase} {input rest rest' : List Token} {ns ns' : List Node}
      (h : Reads forms phrase input ns rest) (h' : Reads forms phrase input ns' rest') :
      ns = ns' ∧ rest = rest' := h.unique h'
  induction h with
  | _ =>
    intro x rest' h'
    cases h' <;> grind

/-- Reading gets stuck in one place only, where one thing only was expected. -/
theorem Stuck.unique (h : Stuck forms phrase input x rest) :
    ∀ {x' : String} {rest' : List Token}, Stuck forms phrase input x' rest' →
      x = x' ∧ rest = rest' := by
  have huniq {phrase : Phrase} {input rest rest' : List Token} {ns ns' : List Node}
      (h : Reads forms phrase input ns rest) (h' : Reads forms phrase input ns' rest') :
      ns = ns' ∧ rest = rest' := h.unique h'
  have hnot {phrase : Phrase} {input rest rest' : List Token} {ns : List Node} {x : String}
      (h : Reads forms phrase input ns rest) : ¬ Stuck forms phrase input x rest' := h.not_stuck
  induction h with
  | _ =>
    intro x' rest' h'
    cases h' <;> grind

end Parser
end Juxta
