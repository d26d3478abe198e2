import Juxta.Proofs.Parser.Separators
import Juxta.Proofs.Parser.Yield

/-!
# Where a statement may end without a separator

The semicolon behind a statement may be left out, and so two statements can follow each other with
nothing in between.  A call does not end in front of a value, which is one more argument, and a
value alone would become a call.  What remains are operators that chain to the left: an operand of
them ends where it ends, and if a value comes next, it begins a statement of its own.

The texts `<-`, `->` and `|>` are among those that end a call, but in no program does a call end in
front of one: they are operators that chain to the left, and nothing begins with such an operator.

## What is here

* `separatorsBefore` — the tokens between two trees that follow each other.
* `EndsInChain` — the last operand of a tree is a chain of operators.
* `ReadAt` — how a list of statements and a call come to be where they are written;
  `Reads.allReadAt` says that this holds for all of them.
* `Reads.endsInChain` — what is read in front of a value.
* `statements_end_in_chains` — the statements and the calls of a program.
-/

set_option autoImplicit false
namespace Juxta

namespace Token

variable {t : Token} {ts : List Token}

/-- The separators directly in front of a significant token, which is given by its index among the
significant tokens. -/
def separatorsBefore : Nat → List Token → List Token
  | _, [] => []
  | 0, t :: ts => if t.isSeparator then t :: separatorsBefore 0 ts else []
  | i + 1, t :: ts => separatorsBefore (if t.isSeparator then i + 1 else i) ts

/-- A separator behind so many significant tokens is in front of the next one. -/
theorem mem_separatorsBefore {before : List Token} {i : Nat} (hi : (significant before).length = i)
    (ht : t.isSeparator = true) : t ∈ separatorsBefore i (before ++ t :: ts) := by
  induction before generalizing i with
  | nil =>
    subst hi
    rw [List.nil_append, significant_nil, List.length_nil, separatorsBefore, if_pos ht]
    exact List.mem_cons_self
  | cons u before ih =>
    by_cases hu : u.isSeparator = true
    · rw [significant_cons_of_separator hu] at hi
      cases i with
      | zero =>
        rw [List.cons_append, separatorsBefore, if_pos hu]
        exact List.mem_cons_of_mem _ (ih hi)
      | succ i =>
        rw [List.cons_append, separatorsBefore, if_pos hu]
        exact ih hi
    · rw [significant_cons (by simpa using hu), List.length_cons] at hi
      subst hi
      rw [List.cons_append, separatorsBefore, if_neg hu]
      exact ih rfl

/-- Whether a token is one of the operators that end a call in vain. -/
def isArrow (t : Token) : Bool :=
  ["<-", "->", "|>"].contains t.text

/-- Those operators chain to the left. -/
theorem Lexical.kind_of_isArrow (h : t.Lexical) (ht : t.isArrow = true) :
    t.kind = .leftOperator := by
  have htext : t.text = "<-" ∨ t.text = "->" ∨ t.text = "|>" := by simpa [isArrow] using ht
  rcases htext with htext | htext | htext
  · have hkind : ∀ k ∈ Kind.all, k.leads '<' = true → k = .leftOperator := by decide
    exact hkind t.kind (Kind.mem_all _) (h.leads_of_text (c := '<') (l := ['-']) htext)
  · have hkind : ∀ k ∈ Kind.all, k.leads '-' = true → k = .leftOperator ∨ k = .ident := by decide
    refine (hkind t.kind (Kind.mem_all _)
      (h.leads_of_text (c := '-') (l := ['>']) htext)).resolve_right fun hident => ?_
    exact absurd (h.text_of_ident (c := '-') hident htext '>' List.mem_cons_self) (by decide)
  · have hkind : ∀ k ∈ Kind.all, k.leads '|' = true → k = .leftOperator := by decide
    exact hkind t.kind (Kind.mem_all _) (h.leads_of_text (c := '|') (l := ['>']) htext)

end Token

namespace Parser

open Node (yieldAll placedAll)
open Token (significant separatorsBefore)

variable {forms : List ValueForm} {phrase : Phrase} {t : Token} {tokens input rest : List Token}
  {n lhs rhs s s' : Node} {ns ms front back more : List Node} {i : Nat} {k : Node.Kind}
  {place : Option Int}

/-! ## Trees that end in a chain -/

/-- The last operand of the tree, when operators that nest to the right are followed to their right
operands, is an operation of an operator that chains to the left. -/
inductive EndsInChain : Node → Prop
  | chain {lhs rhs : Node} {op : String} {place start : Option Int}
      (hop : isLeftOperator op = true) :
      EndsInChain (.branch .binary [lhs, operatorLeaf op place, rhs] start)
  | nested {lhs rhs : Node} {op : String} {place start : Option Int}
      (hop : isRightOperator op = true) (h : EndsInChain rhs) :
      EndsInChain (.branch .binary [lhs, operatorLeaf op place, rhs] start)

/-- Neither a value nor a call ends in a chain. -/
theorem EndsInChain.kind_eq (h : EndsInChain n) : n.kind = .binary := by
  cases h with
  | chain => rfl
  | nested => rfl

/-- Operands make a chain of their first one, if there is an operator at all. -/
theorem Reads.endsInChain_of_operands (h : Reads forms (.operands lhs) input ns rest)
    (hlex : ∀ t ∈ input, t.Lexical)
    (hop : begins (Token.hasKind .leftOperator) input = true ∨ EndsInChain lhs) :
    ∀ n ∈ ns, EndsInChain n := by
  generalize hphrase : Phrase.operands lhs = phrase at h
  induction h generalizing lhs with
  | noOperand hnone =>
    cases hphrase
    refine List.forall_mem_singleton.2 (hop.resolve_left fun hbegins => ?_)
    rw [hnone] at hbegins
    cases hbegins
  | operand hleft hrhs h _ ih =>
    cases hphrase
    obtain ⟨hoplex, hlex⟩ := List.forall_mem_cons.1 hlex
    refine ih (fun t ht => hlex t (hrhs.suffix.subset ht)) (.inr ?_) rfl
    exact .chain (isLeftOperator_of_lexical hoplex hleft)
  | _ => cases hphrase

/-- Arguments go on up to a token that ends a call. -/
theorem Reads.endsCall_of_arguments (h : Reads forms phrase input ns rest)
    (hphrase : phrase = .arguments ∨ phrase = .afterArgument) :
    begins (!endsCall ·) rest = false := by
  induction h with
  | noArgument hend => exact hend
  | argument _ _ _ _ ih => exact ih (.inr rfl)
  | comma _ _ ih => exact ih (.inl rfl)
  | noComma _ _ ih => exact ih (.inl rfl)
  | _ => rcases hphrase with hphrase | hphrase <;> cases hphrase

/-- **What is read in front of a value ends in a chain of operators.** -/
theorem Reads.endsInChain (h : Reads forms phrase input ns rest) (hphrase : phrase = .expression)
    (hlex : ∀ t ∈ input, t.Lexical) (hopens : Opens rest) : ∀ n ∈ ns, EndsInChain n := by
  induction h with
  | plain h _ =>
    cases h with
    | operation hfirst hop h =>
      exact h.endsInChain_of_operands (fun t ht => hlex t (hfirst.suffix.subset ht)) (.inl hop)
    | call _ _ hargs =>
      -- the value would have been one more argument
      have hend := hargs.endsCall_of_arguments (.inl rfl)
      rw [hopens.call] at hend
      cases hend
  | @nested input mid rest lhs rhs op hlhs hop _ _ ih =>
    have hmid := fun t ht => hlex t (hlhs.suffix.subset ht)
    obtain ⟨hoplex, hmid⟩ := List.forall_mem_cons.1 hmid
    refine List.forall_mem_singleton.2 (.nested (isRightOperator_of_lexical hoplex hop) ?_)
    exact ih rfl hmid hopens rhs (List.mem_singleton.2 rfl)
  | _ => cases hphrase

/-! ## Behind a statement and a call -/

/-- The first token that does not only separate, if there is one, is none of the operators that end
a call in vain. -/
def Arrowless (rest : List Token) : Prop :=
  ∀ t ∈ (significant rest).head?, t.isArrow = false

theorem arrowless_nil : Arrowless [] := by
  intro t ht
  cases ht

theorem Arrowless.cons (h : Arrowless rest) (ht : t.isSeparator = true) :
    Arrowless (t :: rest) := by
  rwa [Arrowless, Token.significant_cons_of_separator ht]

theorem arrowless_cons (hlex : t.Lexical) (hsep : t.isSeparator = false)
    (hk : t.kind ≠ .leftOperator) : Arrowless (t :: rest) := by
  rw [Arrowless, Token.significant_cons hsep]
  rintro _ ⟨⟩
  exact Bool.eq_false_iff.2 fun ht => hk (hlex.kind_of_isArrow ht)

theorem arrowless_mark {c : Char} (hlex : t.Lexical) (hc : Token.isPunctuation c = true)
    (hsemi : c ≠ ';') (hcomma : c ≠ ',') (htext : t.text = String.ofList [c]) :
    Arrowless (t :: rest) := by
  refine arrowless_cons hlex (standsFor_mark hlex hc hsemi hcomma htext).not_separator ?_
  rw [hlex.kind_of_text hc htext]
  decide

/-- Statements begin with none of those operators. -/
theorem Reads.arrowless_statements (h : Reads forms phrase input ns rest)
    (hphrase : phrase = .statements) (hlex : ∀ t ∈ input, t.Lexical) : Arrowless input := by
  induction h with
  | newline ht _ ih =>
    exact (ih rfl (List.forall_mem_cons.1 hlex).2).cons (by simp [Token.isSeparator, ht])
  | @noStatement input _ hend =>
    cases input with
    | nil => exact arrowless_nil
    | cons t ts =>
      have htext : t.text = "\x7d" := by simpa [opensStatement] using hend
      exact arrowless_mark (c := '\x7d') (hlex t List.mem_cons_self) rfl (by decide) (by decide)
        htext
  | statement _ _ hn _ =>
    obtain ⟨t, ts, form, rfl, hform⟩ := hn.exists_formAt rfl (by simp)
    have ht := hlex t List.mem_cons_self
    obtain ⟨hsep, hsettled⟩ := leads_settled ht (leads_of_formAt hform) ts
    exact arrowless_cons ht hsep (by simpa using hsettled.operator)
  | _ => cases hphrase

theorem Reads.arrowless_afterStatement (h : Reads forms .afterStatement input ns rest)
    (hlex : ∀ t ∈ input, t.Lexical) : Arrowless input := by
  cases h with
  | semicolon ht h =>
    have hrest := h.arrowless_statements rfl (List.forall_mem_cons.1 hlex).2
    exact hrest.cons (by simp [Token.isSeparator, ht])
  | noSemicolon _ h => exact h.arrowless_statements rfl hlex

/-! ## Where trees are read -/

/-- The input is what comes behind so many significant tokens, and perhaps separators. -/
def Behind (tokens : List Token) (i : Nat) (input : List Token) : Prop :=
  ∃ before, tokens = before ++ input ∧ (significant before).length = i

theorem Behind.append {front : List Token} (h : Behind tokens i (front ++ rest)) :
    Behind tokens (i + (significant front).length) rest := by
  obtain ⟨before, rfl, rfl⟩ := h
  refine ⟨before ++ front, (List.append_assoc ..).symm, ?_⟩
  rw [Token.significant_append, List.length_append]

theorem Behind.cons (h : Behind tokens i (t :: rest)) (ht : t.isSeparator = false) :
    Behind tokens (i + 1) rest := by
  have hrest := Behind.append (show Behind tokens i ([t] ++ rest) from h)
  rwa [Token.significant_cons ht] at hrest

theorem Behind.separator (h : Behind tokens i (t :: rest)) (ht : t.isSeparator = true) :
    Behind tokens i rest := by
  have hrest := Behind.append (show Behind tokens i ([t] ++ rest) from h)
  rwa [Token.significant_cons_of_separator ht] at hrest

theorem Behind.subset (h : Behind tokens i input) : input ⊆ tokens := by
  obtain ⟨before, rfl, -⟩ := h
  exact List.subset_append_right before input

theorem Behind.getElem? (h : Behind tokens i rest) :
    (significant tokens)[i]? = (significant rest).head? := by
  obtain ⟨before, rfl, rfl⟩ := h
  rw [Token.significant_append, Covers.getElem?_length]

/-- Behind the tokens that some trees were read from stands what reading them left. -/
theorem Reads.behind (h : Reads forms phrase input ns rest) (hlex : ∀ t ∈ input, t.Lexical)
    (hbase : phrase.base = []) (hbehind : Behind tokens i input) :
    Behind tokens (i + (yieldAll [] ns).length) rest := by
  obtain ⟨front, rfl, hcovers⟩ := h.covers hlex
  rw [hbase] at hcovers
  rw [(hcovers [] .nil).length_eq]
  exact hbehind.append

/-- How the node that is written at index `i` among the significant tokens has come to be there, if
it is a list of statements or a call. -/
structure ReadAt (forms : List ValueForm) (tokens : List Token) (i : Nat) (m : Node) : Prop where
  statements : m.kind = .program ∨ m.kind = .block →
    ∃ input rest, Behind tokens (i + m.kind.opening.length) input ∧
      Reads forms .statements input m.children rest
  call : m.kind = .functionCall →
    ∃ input rest, Behind tokens i input ∧ Reads forms .intermediate input [m] rest ∧
      Arrowless rest

/-- All nodes of some trees that are written from index `i` on have come to be there. -/
def AllReadAt (forms : List ValueForm) (tokens : List Token) (i : Nat) (ns : List Node) : Prop :=
  ∀ j m, (j, m) ∈ placedAll 0 i ns → ReadAt forms tokens j m

/-- Whether nodes of a kind are neither lists of statements nor calls. -/
def isOther (k : Node.Kind) : Bool :=
  k ≠ .program && k ≠ .block && k ≠ .functionCall

theorem readAt_of_isOther (h : isOther n.kind = true) : ReadAt forms tokens i n := by
  simp only [isOther, Bool.and_eq_true, decide_eq_true_eq] at h
  exact ⟨fun hk => absurd hk (not_or.2 h.1), fun hk => absurd hk h.2⟩

namespace AllReadAt

theorem nil : AllReadAt forms tokens i [] :=
  fun _ _ h => absurd h List.not_mem_nil

theorem append (h : AllReadAt forms tokens i ns)
    (h' : AllReadAt forms tokens (i + (yieldAll [] ns).length) ms) :
    AllReadAt forms tokens i (ns ++ ms) := by
  intro j m hm
  rw [Node.placedAll_append, List.mem_append] at hm
  exact hm.elim (h j m) (h' j m)

theorem leaf {p : Node.Payload} (hk : isOther k = true) :
    AllReadAt forms tokens i [.leaf k p place] := by
  intro j m hm
  rw [placedAll, Node.placed, placedAll, List.append_nil, List.mem_singleton] at hm
  obtain ⟨-, rfl⟩ := Prod.mk.inj hm
  exact readAt_of_isOther hk

theorem branch (hjoint : k.joint = []) (hnode : ReadAt forms tokens i (.branch k ns place))
    (h : AllReadAt forms tokens (i + k.opening.length) ns) :
    AllReadAt forms tokens i [.branch k ns place] := by
  intro j m hm
  rw [placedAll, Node.placed, placedAll, List.append_nil, hjoint, List.mem_cons] at hm
  rcases hm with hm | hm
  · obtain ⟨rfl, rfl⟩ := Prod.mk.inj hm
    exact hnode
  · exact h j m hm

/-- An operator between two trees. -/
theorem binary {op : Token} (h : AllReadAt forms tokens i [lhs])
    (h' : AllReadAt forms tokens (i + lhs.yield.length + 1) [rhs]) :
    AllReadAt forms tokens i [binaryNode lhs op rhs] := by
  have hop : AllReadAt forms tokens (i + lhs.yield.length) [textLeaf .operator op] := leaf rfl
  exact branch rfl (readAt_of_isOther rfl) (h.append (hop.append h'))

/-- A property of a tree. -/
theorem property (h : AllReadAt forms tokens i [n]) (u : Token) :
    AllReadAt forms tokens i [propertyNode n u] := by
  intro j m hm
  simp only [propertyNode, textLeaf, placedAll, Node.placed, List.append_nil, List.mem_cons,
    List.mem_append, List.not_mem_nil, or_false] at hm
  rcases hm with hm | hm | hm
  · obtain ⟨-, rfl⟩ := Prod.mk.inj hm
    exact readAt_of_isOther rfl
  · exact h j m (List.mem_append_left _ hm)
  · obtain ⟨-, rfl⟩ := Prod.mk.inj hm
    exact readAt_of_isOther rfl

/-- A callee and its arguments, when they are a call. -/
theorem call {callee : Node} {args : List Node} (h : AllReadAt forms tokens i (callee :: args))
    (hbehind : Behind tokens i input)
    (hread : Reads forms .intermediate input [callNode callee args] rest)
    (hrest : Arrowless rest) : AllReadAt forms tokens i [callNode callee args] := by
  rw [callNode] at hread ⊢
  split
  · next hargs =>
    obtain rfl := List.isEmpty_iff.1 hargs
    exact h
  · next hargs =>
    rw [if_neg hargs] at hread
    exact branch rfl ⟨fun hk => absurd hk (by simp [Node.kind]),
      fun _ => ⟨input, rest, hbehind, hread, hrest⟩⟩ h

end AllReadAt

/-! ## Reading tells where -/

/-- What has to be known about the tokens behind a phrase, if it can end in a call. -/
def Phrase.Ended (rest : List Token) : Phrase → Prop
  | intermediate | expression => Arrowless rest
  | _ => True

theorem length_yield_binaryNode (lhs rhs : Node) (op : Token) :
    (binaryNode lhs op rhs).yield.length = lhs.yield.length + 1 + rhs.yield.length := by
  simp only [binaryNode, textLeaf, Node.yield, yieldAll, Node.Kind.opening, Node.Kind.joint,
    Node.Kind.closing, List.length_append, List.length_cons, List.length_nil]
  omega

theorem length_yield_propertyNode (base : Node) (name : Token) :
    (propertyNode base name).yield.length = base.yield.length + 2 := by
  simp [propertyNode, textLeaf, Node.yield, yieldAll, Node.Kind.opening, Node.Kind.joint,
    Node.Kind.closing]

/-- **Lists of statements and calls are read where they are written.**  Where a phrase goes on from
a tree, that tree is written in front of the input. -/
theorem Reads.allReadAt (h : Reads forms phrase input ns rest) (hlex : ∀ t ∈ input, t.Lexical)
    (hrest : phrase.Ended rest)
    (hbehind : Behind tokens (i + (yieldAll [] phrase.base).length) input)
    (hbase : AllReadAt forms tokens i phrase.base) : AllReadAt forms tokens i ns := by
  -- `i` is where the trees begin, and so it stays while a phrase goes on from a tree
  induction h generalizing i with
  | @leaf t ts form n hform hleaf =>
    cases form with
    | identifier | float | string =>
      obtain rfl := Option.some.inj hleaf
      exact .leaf rfl
    | integer =>
      rw [ValueForm.leaf?] at hleaf
      split at hleaf
      · cases hleaf
      · obtain rfl := Option.some.inj hleaf
        exact .leaf rfl
    | parens | block | quoted | unquote => cases hleaf
  | group _ _ ih | noComma _ _ ih | noSemicolon _ _ ih => exact ih hlex trivial hbehind .nil
  | @block t u ts rest ns hform h hu ih =>
    obtain ⟨ht, hlex⟩ := List.forall_mem_cons.1 hlex
    have htext : t.text = "\x7b" := Token.hasText_eq_true.1 (leads_of_formAt hform)
    have hopen := standsFor_mark (c := '\x7b') ht rfl (by decide) (by decide) htext
    have hts := hbehind.cons hopen.not_separator
    exact .branch rfl ⟨fun _ => ⟨ts, u :: rest, hts, h⟩, fun hk => absurd hk (by simp [Node.kind])⟩
      (ih hlex trivial hts .nil)
  | @quoted t ts rest n hform h ih =>
    obtain ⟨ht, hlex⟩ := List.forall_mem_cons.1 hlex
    have hopen := standsFor_quote ht (Token.hasKind_eq_true.1 (leads_of_formAt hform))
    have hts := hbehind.cons hopen.not_separator
    exact .branch rfl (readAt_of_isOther rfl) (ih hlex trivial hts .nil)
  | @unquote t ts rest n hform h ih =>
    obtain ⟨ht, hlex⟩ := List.forall_mem_cons.1 hlex
    have hopen := standsFor_unquote ht (Token.hasKind_eq_true.1 (leads_of_formAt hform))
    have hts := hbehind.cons hopen.not_separator
    exact .branch rfl (readAt_of_isOther rfl) (ih hlex trivial hts .nil)
  | @parens t u ts rest n htext h hu ih =>
    obtain ⟨ht, hlex⟩ := List.forall_mem_cons.1 hlex
    have hulex : u.Lexical := hlex u (h.suffix.subset List.mem_cons_self)
    have hopen := standsFor_mark (c := '(') ht rfl (by decide) (by decide) htext
    have hclose : Arrowless (u :: rest) :=
      arrowless_mark (c := ')') hulex rfl (by decide) (by decide) hu
    have hts := hbehind.cons hopen.not_separator
    exact .branch rfl (readAt_of_isOther rfl) (ih hlex hclose hts .nil)
  | noProperty => exact hbase
  | @property base t u ts rest ns htext hu _ ih =>
    obtain ⟨ht, hlex⟩ := List.forall_mem_cons.1 hlex
    obtain ⟨hulex, hlex⟩ := List.forall_mem_cons.1 hlex
    have hpoint := standsFor_mark (c := '.') ht rfl (by decide) (by decide) htext
    have hname := standsFor_name hulex hu
    have hts := (hbehind.cons hpoint.not_separator).cons hname.not_separator
    refine ih hlex trivial ?_ (hbase.property u)
    rwa [Phrase.base, yieldAll, length_yield_propertyNode]
  | propertyOrValue hfirst _ ihf ih | chain hfirst _ ihf ih | operation hfirst _ _ ihf ih =>
    have hmid := fun t ht => hlex t (hfirst.suffix.subset ht)
    exact ih hmid trivial (hfirst.behind hlex rfl hbehind) (ihf hlex trivial hbehind .nil)
  | noOperand => exact hbase
  | @operand lhs rhs op ts mid rest ns hop hrhs _ ihr ih =>
    obtain ⟨hoplex, hlex⟩ := List.forall_mem_cons.1 hlex
    have hmid := fun t ht => hlex t (hrhs.suffix.subset ht)
    have hts := hbehind.cons (standsFor_operator hoplex (.inl hop)).not_separator
    refine ih hmid trivial ?_ (hbase.binary (ihr hlex trivial hts .nil))
    rw [Phrase.base, yieldAll, length_yield_binaryNode, ← Nat.add_assoc, ← Nat.add_assoc]
    exact hrhs.behind hlex rfl hts
  | noArgument | noStatement => exact .nil
  | argument _ harg _ iha ih =>
    have hmid := fun t ht => hlex t (harg.suffix.subset ht)
    exact (iha hlex trivial hbehind .nil).append
      (ih hmid trivial (harg.behind hlex rfl hbehind) .nil)
  | comma ht _ ih | newline ht _ ih | semicolon ht _ ih =>
    have hts := hbehind.separator (by simp [Token.isSeparator, ht])
    exact ih (List.forall_mem_cons.1 hlex).2 trivial hts .nil
  | @call input mid rest first args hfirst hop h ihf ih =>
    have hmid := fun t ht => hlex t (hfirst.suffix.subset ht)
    have hargs := ih hmid trivial (hfirst.behind hlex rfl hbehind) .nil
    have hall := (ihf hlex trivial hbehind .nil).append hargs
    exact hall.call hbehind (.call hfirst hop h) hrest
  | plain _ _ ih => exact ih hlex hrest hbehind .nil
  | @nested input mid rest lhs rhs op hlhs hop _ ihl ih =>
    have hmid := fun t ht => hlex t (hlhs.suffix.subset ht)
    obtain ⟨hoplex, hmid⟩ := List.forall_mem_cons.1 hmid
    have hsep := (standsFor_operator hoplex (.inr hop)).not_separator
    have harrow : Arrowless (op :: mid) := arrowless_cons hoplex hsep (by simp [hop])
    have hl := ihl hlex harrow hbehind .nil
    exact hl.binary (ih hmid hrest ((hlhs.behind hlex rfl hbehind).cons hsep) .nil)
  | statement _ _ hn h ihn ih =>
    have hmid := fun t ht => hlex t (hn.suffix.subset ht)
    exact (ihn hlex (h.arrowless_afterStatement hmid) hbehind .nil).append
      (ih hmid trivial (hn.behind hlex rfl hbehind) .nil)

theorem Behind.mem_separatorsBefore (h : Behind tokens i (t :: rest))
    (ht : t.isSeparator = true) : t ∈ separatorsBefore i tokens := by
  obtain ⟨before, rfl, hi⟩ := h
  exact Token.mem_separatorsBefore hi ht

/-! ## Programs -/

/-- One of several statements is read somewhere, and the others follow. -/
theorem Reads.exists_statement (h : Reads forms phrase input ns rest)
    (hphrase : phrase = .statements ∨ phrase = .afterStatement) (hns : ns = front ++ s :: more)
    (hlex : ∀ t ∈ input, t.Lexical) (hbehind : Behind tokens i input) :
    ∃ input' mid, (∀ t ∈ input', t.Lexical) ∧
      Behind tokens (i + (yieldAll [] front).length) input' ∧
      Reads forms .expression input' [s] mid ∧ Reads forms .afterStatement mid more rest := by
  induction h generalizing front i with
  | newline ht _ ih | semicolon ht _ ih =>
    have hts := hbehind.separator (by simp [Token.isSeparator, ht])
    exact ih (.inl rfl) hns (List.forall_mem_cons.1 hlex).2 hts
  | noStatement => exact absurd hns (by simp)
  | @statement input mid rest n ns _ _ hn h _ ih =>
    cases front with
    | nil =>
      obtain ⟨rfl, rfl⟩ := List.cons.inj hns
      exact ⟨input, mid, hlex, hbehind, hn, h⟩
    | cons f front =>
      obtain ⟨rfl, rfl⟩ := List.cons.inj hns
      have hmid := fun t ht => hlex t (hn.suffix.subset ht)
      rw [Node.yieldAll_cons, List.length_append, ← Nat.add_assoc]
      exact ih (.inr rfl) rfl hmid (hn.behind hlex rfl hbehind)
  | noSemicolon _ _ ih => exact ih (.inl rfl) hns hlex hbehind
  | _ => rcases hphrase with hphrase | hphrase <;> cases hphrase

/-- Without a semicolon or a line end in front of it, the next statement follows at once. -/
theorem Reads.opens_afterStatement (h : Reads standardForms .afterStatement input (s :: ns) rest)
    (hlex : ∀ t ∈ input, t.Lexical)
    (hgap : ∀ t ∈ input.head?, t.text ≠ ";" ∧ t.kind ≠ .newline) : Opens input := by
  cases h with
  | semicolon ht => exact absurd ht (hgap _ rfl).1
  | noSemicolon _ h =>
    cases h with
    | newline ht => exact absurd ht (hgap _ rfl).2
    | statement _ _ hn _ =>
      obtain ⟨t, ts, form, rfl, hform⟩ := hn.exists_formAt rfl (by simp)
      exact opens_of_formAt (hlex t List.mem_cons_self) hform

/-- Two statements with nothing between them that separates. -/
theorem ReadAt.endsInChain {m : Node} (h : ReadAt standardForms tokens i m)
    (hlex : ∀ t ∈ tokens, t.Lexical) (hk : m.kind = .program ∨ m.kind = .block)
    (hchildren : m.children = front ++ s :: s' :: back)
    (hgap : ∀ t ∈ separatorsBefore
      (i + m.kind.opening.length + (yieldAll [] (front ++ [s])).length) tokens,
        t.text ≠ ";" ∧ t.kind ≠ .newline) : EndsInChain s := by
  obtain ⟨input, rest, hbehind, hread⟩ := h.statements hk
  have hinput := fun t ht => hlex t (hbehind.subset ht)
  obtain ⟨input', mid, hlex', hbehind', hs, hmore⟩ :=
    hread.exists_statement (.inl rfl) hchildren hinput hbehind
  have hmid := hs.behind hlex' rfl hbehind'
  rw [Nat.add_assoc, ← List.length_append, ← Node.yieldAll_append] at hmid
  have hmidlex := fun t ht => hlex' t (hs.suffix.subset ht)
  have hopens : Opens mid := by
    refine hmore.opens_afterStatement hmidlex fun t ht => ?_
    obtain ⟨ts, rfl⟩ := List.head?_eq_some_iff.1 ht
    by_cases hsep : t.isSeparator = true
    · exact hgap t (hmid.mem_separatorsBefore hsep)
    · simp only [Token.isSeparator, Bool.or_eq_true, decide_eq_true_eq, not_or] at hsep
      exact ⟨hsep.1.2, hsep.1.1⟩
  exact hs.endsInChain rfl hlex' hopens s (List.mem_singleton.2 rfl)

/-- A call, and what stands behind it. -/
theorem ReadAt.not_isArrow {m : Node} (h : ReadAt standardForms tokens i m)
    (hlex : ∀ t ∈ tokens, t.Lexical) (hk : m.kind = .functionCall)
    (ht : (significant tokens)[i + m.yield.length]? = some t) : t.isArrow = false := by
  obtain ⟨input, rest, hbehind, hread, harrow⟩ := h.call hk
  have hrest := hread.behind (fun t ht => hlex t (hbehind.subset ht)) rfl hbehind
  exact harrow t (hrest.getElem?.symm.trans ht)

/-- **A statement ends without a separator only behind a chain of operators.**  If no semicolon and
no line end stands between two statements of a program, or of a block in it, then the last operand
of the first of them is a chain of operators, and so it is neither a value nor a call.  And behind a
call there never stands one of the operators `<-`, `->` and `|>`. -/
theorem statements_end_in_chains {source : String} {tokens : List Token} {node : Node}
    (htokens : Token.tokenize source = .ok tokens) (hparse : parse .program source = .ok node) :
    ∀ i m, (i, m) ∈ node.placed 0 →
      (m.kind = .program ∨ m.kind = .block →
        ∀ front s s' back, m.children = front ++ s :: s' :: back →
          (∀ t ∈ separatorsBefore
            (i + m.kind.opening.length + (yieldAll [] (front ++ [s])).length) tokens,
              t.text ≠ ";" ∧ t.kind ≠ .newline) →
          EndsInChain s ∧ s.kind = .binary) ∧
      (m.kind = .functionCall →
        ∀ t, (significant tokens)[i + m.yield.length]? = some t →
          t.text ∉ ["<-", "->", "|>"]) := by
  obtain ⟨tokens', s, htokens', hparse⟩ := tokenize_of_parse hparse
  obtain rfl := Except.ok.inj (htokens.symm.trans htokens')
  obtain ⟨-, -, ns, rfl, hread⟩ := reads_of_parseTokens hparse
  have hlex := Token.lexical_of_tokenize htokens
  have hstart : Behind tokens 0 tokens := ⟨[], rfl, rfl⟩
  have hall : AllReadAt standardForms tokens 0 [.branch .program ns none] :=
    .branch rfl ⟨fun _ => ⟨tokens, [], hstart, hread⟩, fun hk => absurd hk (by simp [Node.kind])⟩
      (hread.allReadAt hlex trivial hstart .nil)
  intro i m hm
  have hat : ReadAt standardForms tokens i m := hall i m (List.mem_append_left _ hm)
  refine ⟨fun hk front s s' back hchildren hgap => ?_, fun hk t ht => ?_⟩
  · have hends := hat.endsInChain hlex hk hchildren hgap
    exact ⟨hends, hends.kind_eq⟩
  · have harrow := hat.not_isArrow hlex hk ht
    simpa [Token.isArrow] using harrow

/-- A call that follows an operation, with nothing in between, and nothing behind it. -/
theorem statements_end_in_chains_call :
    let source := "a + b f c"
    let name (text : String) (pos : Int) : Node := .leaf .identifier (.str text) (some pos)
    let sum : Node := .branch .binary [name "a" 0, operatorLeaf "+" (some 2), name "b" 4] (some 0)
    let call : Node := .branch .functionCall [name "f" 6, name "c" 8] (some 6)
    let tokens : List Token := [⟨.ident, "a", 0⟩, ⟨.leftOperator, "+", 2⟩, ⟨.ident, "b", 4⟩,
      ⟨.ident, "f", 6⟩, ⟨.ident, "c", 8⟩]
    Token.tokenize source = .ok tokens ∧
      parse .program source = .ok (.branch .program [sum, call] none) ∧
      separatorsBefore 3 tokens = [] ∧ EndsInChain sum ∧
      ∀ t, (significant tokens)[5]? = some t → t.text ∉ ["<-", "->", "|>"] := by
  intro source name sum call tokens
  have htokens : Token.tokenize source = .ok tokens := by decide +kernel
  have hparse : parse .program source = .ok (.branch .program [sum, call] none) := by
    obtain ⟨s, hs⟩ : ∃ s, parseTokens .standard .program tokens =
        .ok (.branch .program [sum, call] none) s := ⟨_, rfl⟩
    rw [parse, parseSource, htokens]
    simp only [hs]
  have hgap : separatorsBefore 3 tokens = [] := by decide +kernel
  have hall := statements_end_in_chains htokens hparse
  have hroot := hall 0 (.branch .program [sum, call] none) List.mem_cons_self
  have hcall := hall 3 call (List.mem_of_getElem? (i := 5) rfl)
  refine ⟨htokens, hparse, hgap, ?_, hcall.2 rfl⟩
  refine (hroot.1 (.inl rfl) [] sum call [] rfl fun t ht => ?_).1
  exact absurd (hgap ▸ ht) List.not_mem_nil

end Parser
end Juxta
