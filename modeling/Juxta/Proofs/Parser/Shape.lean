import Juxta.Proofs.Decimal.Numeral
import Juxta.Proofs.Parser.Reading
import Juxta.Proofs.Token.Lexical

/-!
# The shape of the trees of a grammar

The type of trees holds far more than the grammar makes.  This file says which trees it makes, and
proves that those that are read from tokens of a source are among them.

Two facts about a tree are not local to the rule that makes it.  The base of a property access is
never a quotation, since a quotation takes the properties that follow it; and what an unquotation
holds is always in parentheses.

## What is here

* `Category` — the categories of the grammar.
* `HasShape category n` — the tree `n` is one of the category.
* `HasShape.payload?_isSome`, `HasShape.integer_range` — what holds for all nodes of such a tree.
* `Reads.hasShape` — what is read from tokens of a source has the shape of its category.
-/

set_option autoImplicit false
namespace Juxta.Parser

/-- The categories of the grammar. -/
inductive Category where
  | parens
  | value
  | propertyOrValue
  /-- One operand, or several with operators that chain to the left. -/
  | chain
  | intermediate
  | expression
deriving DecidableEq, Repr

/-- Whether a text is an operator that chains to the left. -/
def isLeftOperator (text : String) : Bool :=
  !text.toList.isEmpty && text.toList.all Token.isOperatorChar

/-- Whether a text is an operator that nests to the right. -/
def isRightOperator (text : String) : Bool :=
  text = ":=" || text = "::"

/-- The leaf of an operator. -/
def operatorLeaf (text : String) (start : Option Int) : Node :=
  .leaf .operator (.str text) start

/-- `HasShape category n`: the tree `n` is one of the category, wherever its nodes start. -/
inductive HasShape : Category → Node → Prop
  | identifier {name : String} {start : Option Int} :
      HasShape .value (.leaf .identifier (.str name) start)
  | integer {n : Int} {start : Option Int} (hlow : 0 ≤ n) (hhigh : n ≤ maxInteger) :
      HasShape .value (.leaf .integer (.int n) start)
  | float {x : Float} {start : Option Int} : HasShape .value (.leaf .float (.float x) start)
  | string {body : String} {start : Option Int} :
      HasShape .value (.leaf .string (.str body) start)
  | parens {n : Node} {start : Option Int} (h : HasShape .expression n) :
      HasShape .parens (.branch .parenthesis [n] start)
  | group {n : Node} (h : HasShape .parens n) : HasShape .value n
  | block {ns : List Node} {start : Option Int} (h : ∀ n ∈ ns, HasShape .expression n) :
      HasShape .value (.branch .block ns start)
  | quoted {n : Node} {start : Option Int} (h : HasShape .propertyOrValue n) :
      HasShape .value (.branch .quoted [n] start)
  | unquote {n : Node} {start : Option Int} (h : HasShape .parens n) :
      HasShape .value (.branch .unquote [n] start)
  | noProperty {n : Node} (h : HasShape .value n) : HasShape .propertyOrValue n
  | property {base : Node} {name : String} {place start : Option Int}
      (h : HasShape .propertyOrValue base) (hbase : base.kind ≠ .quoted) :
      HasShape .propertyOrValue
        (.branch .propertyAccess [base, .leaf .identifier (.str name) place] start)
  | noOperand {n : Node} (h : HasShape .propertyOrValue n) : HasShape .chain n
  | operand {lhs rhs : Node} {op : String} {place start : Option Int} (hl : HasShape .chain lhs)
      (hop : isLeftOperator op = true) (hr : HasShape .propertyOrValue rhs) :
      HasShape .chain (.branch .binary [lhs, operatorLeaf op place, rhs] start)
  | noCall {n : Node} (h : HasShape .chain n) : HasShape .intermediate n
  | call {callee : Node} {args : List Node} {start : Option Int}
      (h : HasShape .propertyOrValue callee) (hne : args ≠ [])
      (hargs : ∀ arg ∈ args, HasShape .chain arg) :
      HasShape .intermediate (.branch .functionCall (callee :: args) start)
  | plain {n : Node} (h : HasShape .intermediate n) : HasShape .expression n
  | nested {lhs rhs : Node} {op : String} {place start : Option Int}
      (hl : HasShape .intermediate lhs) (hop : isRightOperator op = true)
      (hr : HasShape .expression rhs) :
      HasShape .expression (.branch .binary [lhs, operatorLeaf op place, rhs] start)

variable {n m : Node} {c : Category}

/-! ## All nodes of a tree -/

theorem mem_subtreesOfAll {ns : List Node} :
    m ∈ Node.subtreesOfAll ns ↔ ∃ n ∈ ns, m ∈ n.subtrees := by
  induction ns with
  | nil => simp [Node.subtreesOfAll]
  | cons n ns ih => simp [Node.subtreesOfAll, ih]

/-- What a node of the grammar holds: exactly the kinds of leaves have a payload, and integers are
in range. -/
structure HoldsPayload (m : Node) : Prop where
  isSome : m.payload?.isSome = m.kind.isLeaf
  integer : m.kind = .integer → ∃ z, m.payload? = some (.int z) ∧ 0 ≤ z ∧ z ≤ maxInteger

/-- A node of a kind that has children holds no payload. -/
theorem HoldsPayload.branch {k : Node.Kind} (hk : k.isLeaf = false) (cs : List Node)
    (start : Option Int) : HoldsPayload (.branch k cs start) := by
  refine ⟨hk.symm, fun h => ?_⟩
  obtain rfl : k = .integer := h
  exact absurd hk (by decide)

theorem HoldsPayload.leaf {k : Node.Kind} (hk : k.isLeaf = true) (hint : k ≠ .integer)
    (p : Node.Payload) (start : Option Int) : HoldsPayload (.leaf k p start) :=
  ⟨hk.symm, fun h => absurd h hint⟩

theorem forall_mem_subtrees_branch {P : Node → Prop} {k : Node.Kind} {cs : List Node}
    {start : Option Int} (hroot : P (.branch k cs start))
    (hcs : ∀ c ∈ cs, ∀ m ∈ c.subtrees, P m) : ∀ m ∈ (Node.branch k cs start).subtrees, P m := by
  intro m hm
  rw [Node.subtrees, List.mem_cons, mem_subtreesOfAll] at hm
  rcases hm with rfl | ⟨c, hc, hm⟩
  · exact hroot
  · exact hcs c hc m hm

theorem forall_mem_subtrees_leaf {P : Node → Prop} {k : Node.Kind} {p : Node.Payload}
    {start : Option Int} (h : P (.leaf k p start)) : ∀ m ∈ (Node.leaf k p start).subtrees, P m := by
  intro m hm
  rw [Node.subtrees, List.mem_singleton] at hm
  exact hm ▸ h

/-- Every node of a tree of the grammar holds a payload exactly if its kind is one of leaves. -/
theorem HasShape.holdsPayload (h : HasShape c n) : ∀ m ∈ n.subtrees, HoldsPayload m := by
  induction h with
  | identifier | float | string => exact forall_mem_subtrees_leaf (.leaf rfl (by decide) _ _)
  | integer hlow hhigh => exact forall_mem_subtrees_leaf ⟨rfl, fun _ => ⟨_, rfl, hlow, hhigh⟩⟩
  | group _ ih | noProperty _ ih | noOperand _ ih | noCall _ ih | plain _ ih => exact ih
  | parens _ ih | quoted _ ih | unquote _ ih =>
    refine forall_mem_subtrees_branch (.branch rfl _ _) ?_
    exact List.forall_mem_singleton.2 ih
  | block _ ih => exact forall_mem_subtrees_branch (.branch rfl _ _) ih
  | property _ _ ih =>
    refine forall_mem_subtrees_branch (.branch rfl _ _) ?_
    refine List.forall_mem_cons.2 ⟨ih, List.forall_mem_singleton.2 ?_⟩
    exact forall_mem_subtrees_leaf (.leaf rfl (by decide) _ _)
  | operand _ _ _ ihl ihr | nested _ _ _ ihl ihr =>
    refine forall_mem_subtrees_branch (.branch rfl _ _) ?_
    refine List.forall_mem_cons.2 ⟨ihl, List.forall_mem_cons.2 ⟨?_, ?_⟩⟩
    · exact forall_mem_subtrees_leaf (.leaf rfl (by decide) _ _)
    · exact List.forall_mem_singleton.2 ihr
  | call _ _ _ ih ihargs =>
    refine forall_mem_subtrees_branch (.branch rfl _ _) ?_
    exact List.forall_mem_cons.2 ⟨ih, ihargs⟩

/-! ## The shape of what is read -/

variable {forms : List ValueForm} {phrase : Phrase} {input rest : List Token} {ns : List Node}

/-- The category of the trees of a phrase. -/
def Phrase.category : Phrase → Category
  | value => .value
  | parens => .parens
  | properties _ | propertyOrValue => .propertyOrValue
  | operands _ | chain | arguments | afterArgument => .chain
  | intermediate => .intermediate
  | expression | statements | afterStatement => .expression

/-- What is expected of the tree that a phrase goes on from, in front of `input`. -/
def Phrase.GoesOn (input : List Token) : Phrase → Prop
  | properties base =>
    HasShape .propertyOrValue base ∧
      (base.kind = .quoted → begins (Token.hasText ".") input = false)
  | operands lhs => HasShape .chain lhs
  | _ => True

theorem leads_of_formAt {form : ValueForm} {t : Token} (h : formAt forms t = some form) :
    form.leads t = true := by
  rw [formAt] at h
  simpa using List.find?_some h

/-- No point follows the properties of a value. -/
theorem Reads.no_point {base : Node} (h : Reads forms (.properties base) input ns rest) :
    begins (Token.hasText ".") rest = false := by
  generalize hphrase : Phrase.properties base = phrase at h
  induction h generalizing base with
  | noProperty hdot => exact hdot
  | property _ _ _ ih => exact ih rfl
  | _ => cases hphrase

theorem kind_of_leaf? {form : ValueForm} {t : Token} (h : form.leaf? t = some n) :
    n.kind.isLeaf = true := by
  cases form with
  | identifier | float | string =>
    obtain rfl := Option.some.inj h
    rfl
  | integer =>
    rw [ValueForm.leaf?] at h
    split at h
    · cases h
    · obtain rfl := Option.some.inj h
      rfl
  | parens | block | quoted | unquote => cases h

/-- No point follows a quotation, since that takes the properties that follow it. -/
theorem Reads.no_point_of_quoted (h : Reads forms .value input [n] rest) (hn : n.kind = .quoted) :
    begins (Token.hasText ".") rest = false := by
  cases h with
  | leaf _ hleaf =>
    have hk := kind_of_leaf? hleaf
    rw [hn] at hk
    cases hk
  | group _ h =>
    cases h
    cases hn
  | block | unquote => cases hn
  | quoted _ h =>
    cases h with
    | propertyOrValue _ h => exact h.no_point

/-- The leaf of a token of a source is a value. -/
theorem hasShape_of_leaf? {form : ValueForm} {t : Token} (ht : t.Lexical)
    (hform : form.leads t = true) (h : form.leaf? t = some n) : HasShape .value n := by
  cases form with
  | identifier =>
    obtain rfl := Option.some.inj h
    exact .identifier
  | float =>
    obtain rfl := Option.some.inj h
    exact .float
  | string =>
    obtain rfl := Option.some.inj h
    exact .string
  | integer =>
    rw [ValueForm.leaf?] at h
    split at h
    · cases h
    · next hmax =>
      obtain rfl := Option.some.inj h
      obtain ⟨c, cs, hc⟩ := List.exists_cons_of_ne_nil ht.text_ne_nil
      have hdigit := ht.text_of_integer (Token.hasKind_eq_true.1 hform) c (hc ▸ List.mem_cons_self)
      exact .integer (Decimal.readInteger?_nonneg hc hdigit) (Int.not_lt.1 hmax)
  | parens | block | quoted | unquote => cases h

theorem isLeftOperator_of_lexical {t : Token} (ht : t.Lexical) (hk : t.kind = .leftOperator) :
    isLeftOperator t.text = true := by
  obtain ⟨hne, hall⟩ := ht.text_of_leftOperator hk
  rw [isLeftOperator, Bool.and_eq_true, Bool.not_eq_true', List.isEmpty_eq_false_iff,
    List.all_eq_true]
  exact ⟨hne, hall⟩

theorem isRightOperator_of_lexical {t : Token} (ht : t.Lexical) (hk : t.kind = .rightOperator) :
    isRightOperator t.text = true := by
  rw [isRightOperator, Bool.or_eq_true, decide_eq_true_eq, decide_eq_true_eq]
  exact ht.text_of_rightOperator hk

theorem hasShape_callNode {callee : Node} {args : List Node} (h : HasShape .propertyOrValue callee)
    (hargs : ∀ arg ∈ args, HasShape .chain arg) :
    HasShape .intermediate (callNode callee args) := by
  rw [callNode]
  split
  · exact .noCall (.noOperand h)
  · next hne => exact .call h (by simpa using hne) hargs

/-- **What is read from tokens of a source has the shape of its category.** -/
theorem Reads.hasShape (h : Reads forms phrase input ns rest) (hlex : ∀ t ∈ input, t.Lexical)
    (hbase : phrase.GoesOn input) : ∀ n ∈ ns, HasShape phrase.category n := by
  induction h with
  | leaf hform hleaf =>
    refine List.forall_mem_singleton.2 ?_
    exact hasShape_of_leaf? (hlex _ List.mem_cons_self) (leads_of_formAt hform) hleaf
  | group _ _ ih => exact fun n hn => .group (ih hlex trivial n hn)
  | block _ _ _ ih =>
    refine List.forall_mem_singleton.2 (.block (ih ?_ trivial))
    exact (List.forall_mem_cons.1 hlex).2
  | quoted _ _ ih =>
    refine List.forall_mem_singleton.2 (.quoted ?_)
    exact List.forall_mem_singleton.1 (ih (List.forall_mem_cons.1 hlex).2 trivial)
  | unquote _ _ ih =>
    refine List.forall_mem_singleton.2 (.unquote ?_)
    exact List.forall_mem_singleton.1 (ih (List.forall_mem_cons.1 hlex).2 trivial)
  | parens _ _ _ ih =>
    refine List.forall_mem_singleton.2 (.parens ?_)
    exact List.forall_mem_singleton.1 (ih (List.forall_mem_cons.1 hlex).2 trivial)
  | noProperty => exact List.forall_mem_singleton.2 hbase.1
  | @property base t u ts rest ns ht hu _ ih =>
    have hkind : base.kind ≠ .quoted := by
      intro hq
      have hnot := hbase.2 hq
      rw [begins_cons, Token.hasText_eq_false] at hnot
      exact hnot ht
    refine ih ?_ ⟨.property hbase.1 hkind, fun hq => by cases hq⟩
    exact (List.forall_mem_cons.1 (List.forall_mem_cons.1 hlex).2).2
  | propertyOrValue hvalue _ ihb ih =>
    have hshape := List.forall_mem_singleton.1 (ihb hlex trivial)
    refine ih ?_ ⟨.noProperty hshape, hvalue.no_point_of_quoted⟩
    exact fun t ht => hlex t (hvalue.suffix.subset ht)
  | noOperand => exact List.forall_mem_singleton.2 hbase
  | @operand lhs rhs op ts mid rest ns hop hrhs _ ihr ih =>
    obtain ⟨hoplex, hlex⟩ := List.forall_mem_cons.1 hlex
    have hshape := List.forall_mem_singleton.1 (ihr hlex trivial)
    refine ih ?_ (.operand hbase (isLeftOperator_of_lexical hoplex hop) hshape)
    exact fun t ht => hlex t (hrhs.suffix.subset ht)
  | chain hfirst _ ihf ih =>
    have hshape := List.forall_mem_singleton.1 (ihf hlex trivial)
    exact ih (fun t ht => hlex t (hfirst.suffix.subset ht)) (.noOperand hshape)
  | noArgument => exact List.forall_mem_nil _
  | argument _ harg _ iha ih =>
    refine List.forall_mem_cons.2 ⟨List.forall_mem_singleton.1 (iha hlex trivial), ?_⟩
    exact ih (fun t ht => hlex t (harg.suffix.subset ht)) trivial
  | comma _ _ ih => exact ih (List.forall_mem_cons.1 hlex).2 trivial
  | noComma _ _ ih => exact ih hlex trivial
  | operation hfirst _ _ ihf ih =>
    have hshape := List.forall_mem_singleton.1 (ihf hlex trivial)
    have hchain := ih (fun t ht => hlex t (hfirst.suffix.subset ht)) (.noOperand hshape)
    exact fun n hn => .noCall (hchain n hn)
  | call hfirst _ _ ihf ih =>
    have hshape := List.forall_mem_singleton.1 (ihf hlex trivial)
    have hargs := ih (fun t ht => hlex t (hfirst.suffix.subset ht)) trivial
    exact List.forall_mem_singleton.2 (hasShape_callNode hshape hargs)
  | plain _ _ ih => exact fun n hn => .plain (ih hlex trivial n hn)
  | @nested input mid rest lhs rhs op hlhs hop _ ihl ih =>
    have hmid : ∀ t ∈ op :: mid, t.Lexical := fun t ht => hlex t (hlhs.suffix.subset ht)
    obtain ⟨hoplex, hmid⟩ := List.forall_mem_cons.1 hmid
    have hshape := List.forall_mem_singleton.1 (ihl hlex trivial)
    have hshape' := List.forall_mem_singleton.1 (ih hmid trivial)
    refine List.forall_mem_singleton.2 ?_
    exact .nested hshape (isRightOperator_of_lexical hoplex hop) hshape'
  | newline _ _ ih => exact ih (List.forall_mem_cons.1 hlex).2 trivial
  | noStatement => exact List.forall_mem_nil _
  | statement _ _ hn _ ihn ih =>
    refine List.forall_mem_cons.2 ⟨List.forall_mem_singleton.1 (ihn hlex trivial), ?_⟩
    exact ih (fun t ht => hlex t (hn.suffix.subset ht)) trivial
  | semicolon _ _ ih => exact ih (List.forall_mem_cons.1 hlex).2 trivial
  | noSemicolon _ _ ih => exact ih hlex trivial

end Juxta.Parser
