import Juxta.Proofs.Evaluation.Unplaced
import Juxta.Proofs.Parser.Shape

/-!
# Tokens in other places

The grammar looks at the class of a token and asks for a few texts; where a token stands, and what a
line end looks like, it does not ask.  Where tokens are moved and line ends are written in another
way, what is read from them is therefore the same, with trees that are moved in the same way.

## What is here

* `Node.relocate f` — the tree whose nodes start where `f` says; `Node.unplaced_relocate`: without
  places it is the same tree.
* `signs` — the texts that the grammar asks for.
* `Relabels f t t'` — the token `t'` is the same for the grammar as `t`, at the place that `f` says.
* `Reads.relabel`, `Stuck.relabel` — reading relabeled tokens, and getting stuck on them.
-/

set_option autoImplicit false
namespace Juxta

/-! ## Trees in other places -/

namespace Node

mutual

/-- The tree whose nodes start where `f` says, by where they started. -/
def relocate (f : Int → Int) : Node → Node
  | leaf k p s => leaf k p (s.map f)
  | branch k cs s => branch k (relocateAll f cs) (s.map f)

/-- The trees whose nodes start where `f` says. -/
def relocateAll (f : Int → Int) : List Node → List Node
  | [] => []
  | n :: ns => relocate f n :: relocateAll f ns

end

variable (f : Int → Int)

theorem relocateAll_eq_map (ns : List Node) : relocateAll f ns = ns.map (relocate f) := by
  induction ns with
  | nil => rfl
  | cons n ns ih => rw [relocateAll, ih, List.map_cons]

theorem relocate_branch (k : Kind) (cs : List Node) (s : Option Int) :
    (branch k cs s).relocate f = branch k (cs.map (relocate f)) (s.map f) := by
  rw [relocate, relocateAll_eq_map]

theorem start_relocate (n : Node) : (n.relocate f).start = n.start.map f := by
  cases n with
  | leaf => rfl
  | branch => rfl

mutual

/-- A tree in another place is the same tree. -/
theorem unplaced_relocate : ∀ n : Node, (n.relocate f).unplaced = n.unplaced
  | leaf _ _ _ => rfl
  | branch k cs _ => by rw [relocate, unplaced, unplaced, unplacedAll_relocateAll cs]

theorem unplacedAll_relocateAll : ∀ ns : List Node,
    unplacedAll (relocateAll f ns) = unplacedAll ns
  | [] => rfl
  | n :: ns => by
    rw [relocateAll, unplacedAll, unplacedAll, unplaced_relocate n, unplacedAll_relocateAll ns]

end

end Node

namespace Parser

/-! ## Tokens that are the same for the grammar -/

/-- The texts that the grammar asks for. -/
def signs : List String :=
  ["(", ")", "\x7b", "\x7d", "]", ".", ",", ";", ":=", "::", "<-", "->", "|>"]

/-- The second token is the same for the grammar as the first, and it stands where `f` says.  Only
line ends may be written in another way. -/
structure Relabels (f : Int → Int) (t t' : Token) : Prop where
  kind : t'.kind = t.kind
  pos : t'.pos = f t.pos
  text : t.kind ≠ .newline → t'.text = t.text
  sign : ∀ sign ∈ signs, t'.text = sign ↔ t.text = sign

variable {f : Int → Int} {g : Token → Token} {forms : List ValueForm} {phrase : Phrase}
  {t t' u : Token} {input rest : List Token} {ns : List Node} {x : String}

namespace Relabels

theorem hasText (h : Relabels f t t') {sign : String} (hsign : sign ∈ signs) :
    t'.hasText sign = t.hasText sign :=
  decide_eq_decide.2 (h.sign sign hsign)

theorem hasKind (h : Relabels f t t') (k : Token.Kind) : t'.hasKind k = t.hasKind k := by
  rw [Token.hasKind, Token.hasKind, h.kind]

theorem mem_iff (h : Relabels f t t') {texts : List String} (htexts : ∀ s ∈ texts, s ∈ signs) :
    t'.text ∈ texts ↔ t.text ∈ texts := by
  constructor
  · intro hmem
    rwa [(h.sign _ (htexts _ hmem)).1 rfl]
  · intro hmem
    rwa [(h.sign _ (htexts _ hmem)).2 rfl]

theorem endsCall (h : Relabels f t t') : Parser.endsCall t' = Parser.endsCall t := by
  have hends : ∀ s ∈ [";", ")", "]", "\x7d", ":=", "::", "<-", "->", "|>"], s ∈ signs := by decide
  rw [Parser.endsCall, Parser.endsCall, h.kind, Bool.eq_iff_iff, Bool.or_eq_true, Bool.or_eq_true,
    List.contains_iff_mem, List.contains_iff_mem, h.mem_iff hends]

theorem opensStatement (h : Relabels f t t') :
    Parser.opensStatement t' = Parser.opensStatement t :=
  decide_eq_decide.2 (not_congr (h.sign "\x7d" (by decide)))

theorem formAt (h : Relabels f t t') : Parser.formAt forms t' = Parser.formAt forms t := by
  have hleads : (fun form : ValueForm => form.leads t') = fun form => form.leads t := by
    funext form
    cases form with
    | parens | block => exact h.hasText (by decide)
    | identifier | integer | float | string | quoted | unquote => exact h.hasKind _
  rw [Parser.formAt, hleads, Parser.formAt]

/-! ## Trees from such tokens -/

theorem textLeaf (h : Relabels f t t') (hk : t.kind ≠ .newline) (k : Node.Kind) :
    Parser.textLeaf k t' = (Parser.textLeaf k t).relocate f := by
  rw [Parser.textLeaf, Parser.textLeaf, h.text hk, h.pos]
  rfl

theorem leaf? (h : Relabels f t t') {form : ValueForm} (hform : form.leads t = true) :
    form.leaf? t' = (form.leaf? t).map (Node.relocate f) := by
  have hkind {k : Token.Kind} (hk : Token.hasKind k t = true) (hne : k ≠ .newline) :
      t'.text = t.text :=
    h.text (Token.hasKind_eq_true.1 hk ▸ hne)
  cases form with
  | identifier =>
    rw [ValueForm.leaf?, ValueForm.leaf?, Parser.textLeaf, Parser.textLeaf,
      hkind hform (by decide), h.pos]
    rfl
  | integer =>
    have hint : integerOf t' = integerOf t := by
      rw [integerOf, integerOf, hkind hform (by decide)]
    rw [ValueForm.leaf?, ValueForm.leaf?, apply_ite (Option.map (Node.relocate f)), integerLeaf,
      hint, h.pos]
    rfl
  | float =>
    rw [ValueForm.leaf?, ValueForm.leaf?, floatLeaf, hkind hform (by decide), h.pos]
    rfl
  | string =>
    rw [ValueForm.leaf?, ValueForm.leaf?, stringLeaf, stringBody, hkind hform (by decide), h.pos]
    rfl
  | parens | block | quoted | unquote => rfl

theorem binaryNode (h : Relabels f t t') (hk : t.kind ≠ .newline) (lhs rhs : Node) :
    (Parser.binaryNode lhs t rhs).relocate f =
      Parser.binaryNode (lhs.relocate f) t' (rhs.relocate f) := by
  rw [Parser.binaryNode, Parser.binaryNode, Node.relocate_branch, Node.start_relocate,
    h.textLeaf hk]
  rfl

theorem propertyNode (h : Relabels f t t') (hk : t.kind ≠ .newline) (base : Node) :
    (Parser.propertyNode base t).relocate f = Parser.propertyNode (base.relocate f) t' := by
  rw [Parser.propertyNode, Parser.propertyNode, Node.relocate_branch, Node.start_relocate,
    h.textLeaf hk]
  rfl

theorem nodeAt (h : Relabels f t t') (k : Node.Kind) (cs : List Node) :
    (Parser.nodeAt k t cs).relocate f = Parser.nodeAt k t' (cs.map (Node.relocate f)) := by
  rw [Parser.nodeAt, Parser.nodeAt, Node.relocate_branch, h.pos]
  rfl

end Relabels

theorem callNode_relocate (callee : Node) (args : List Node) :
    (callNode callee args).relocate f =
      callNode (callee.relocate f) (args.map (Node.relocate f)) := by
  cases args with
  | nil => rfl
  | cons arg args =>
    rw [callNode, callNode, List.isEmpty_cons, List.map_cons, List.isEmpty_cons]
    simp only [Bool.false_eq_true, if_false]
    rw [Node.relocate_branch, Node.start_relocate]
    rfl

/-! ## Reading -/

/-- The phrase that goes on from the tree in the other place. -/
def Phrase.relocate (f : Int → Int) : Phrase → Phrase
  | properties base => properties (base.relocate f)
  | operands lhs => operands (lhs.relocate f)
  | phrase => phrase

theorem begins_map {p : Token → Bool} (h : ∀ t ∈ input, p (g t) = p t) :
    begins p (input.map g) = begins p input := by
  cases input with
  | nil => rfl
  | cons t ts => exact h t List.mem_cons_self

/-- All tokens of the list are the same for the grammar as those that `g` makes of them. -/
abbrev RelabelsAll (f : Int → Int) (g : Token → Token) (input : List Token) : Prop :=
  ∀ t ∈ input, Relabels f t (g t)

namespace RelabelsAll

theorem mono (h : RelabelsAll f g input) (hrest : rest <:+ input) : RelabelsAll f g rest :=
  fun t ht => h t (hrest.subset ht)

theorem cons (h : RelabelsAll f g (t :: rest)) : Relabels f t (g t) ∧ RelabelsAll f g rest :=
  List.forall_mem_cons.1 h

theorem hasText (h : RelabelsAll f g input) {sign : String} (hsign : sign ∈ signs) :
    begins (Token.hasText sign) (input.map g) = begins (Token.hasText sign) input :=
  begins_map fun t ht => (h t ht).hasText hsign

theorem hasKind (h : RelabelsAll f g input) (k : Token.Kind) :
    begins (Token.hasKind k) (input.map g) = begins (Token.hasKind k) input :=
  begins_map fun t ht => (h t ht).hasKind k

theorem endsCall (h : RelabelsAll f g input) :
    begins (!Parser.endsCall ·) (input.map g) = begins (!Parser.endsCall ·) input :=
  begins_map fun t ht => congrArg (!·) (h t ht).endsCall

theorem opensStatement (h : RelabelsAll f g input) :
    begins Parser.opensStatement (input.map g) = begins Parser.opensStatement input :=
  begins_map fun t ht => (h t ht).opensStatement

theorem nextForm (h : RelabelsAll f g input) :
    Parser.nextForm forms (input.map g) = Parser.nextForm forms input := by
  cases input with
  | nil => rfl
  | cons t ts => exact (h t List.mem_cons_self).formAt

end RelabelsAll

/-- **Relabeled tokens are read as the same trees in other places.** -/
theorem Reads.relabel (h : Reads forms phrase input ns rest) (hg : RelabelsAll f g input) :
    Reads forms (phrase.relocate f) (input.map g) (ns.map (Node.relocate f)) (rest.map g) := by
  induction h with
  | leaf hform hleaf =>
    obtain ⟨ht, -⟩ := hg.cons
    refine .leaf (ht.formAt.trans hform) ?_
    rw [ht.leaf? (leads_of_formAt hform), hleaf]
    rfl
  | group hform _ ih => exact .group (hg.nextForm.trans hform) (ih hg)
  | block hform h hu ih =>
    obtain ⟨ht, hg⟩ := hg.cons
    obtain ⟨hgu, -⟩ := (hg.mono h.suffix).cons
    rw [List.map_singleton, ht.nodeAt]
    exact .block (ht.formAt.trans hform) (ih hg) ((hgu.sign _ (by decide)).2 hu)
  | quoted hform _ ih =>
    obtain ⟨ht, hg⟩ := hg.cons
    rw [List.map_singleton, ht.nodeAt]
    exact .quoted (ht.formAt.trans hform) (ih hg)
  | unquote hform _ ih =>
    obtain ⟨ht, hg⟩ := hg.cons
    rw [List.map_singleton, ht.nodeAt]
    exact .unquote (ht.formAt.trans hform) (ih hg)
  | parens htext h hu ih =>
    obtain ⟨ht, hg⟩ := hg.cons
    obtain ⟨hgu, -⟩ := (hg.mono h.suffix).cons
    rw [List.map_singleton, ht.nodeAt]
    exact .parens ((ht.sign _ (by decide)).2 htext) (ih hg) ((hgu.sign _ (by decide)).2 hu)
  | noProperty hdot => exact .noProperty ((hg.hasText (by decide)).trans hdot)
  | property ht hu _ ih =>
    obtain ⟨hgt, hg⟩ := hg.cons
    obtain ⟨hgu, hg⟩ := hg.cons
    refine .property ((hgt.sign _ (by decide)).2 ht) (hgu.kind.trans hu) ?_
    exact hgu.propertyNode (by rw [hu]; decide) _ ▸ ih hg
  | propertyOrValue hbase _ ihb ih => exact .propertyOrValue (ihb hg) (ih (hg.mono hbase.suffix))
  | noOperand hop => exact .noOperand ((hg.hasKind _).trans hop)
  | operand hop hrhs _ ihr ih =>
    obtain ⟨hgo, hg⟩ := hg.cons
    refine .operand (hgo.kind.trans hop) (ihr hg) ?_
    exact hgo.binaryNode (by rw [hop]; decide) _ _ ▸ ih (hg.mono hrhs.suffix)
  | chain hfirst _ ihf ih => exact .chain (ihf hg) (ih (hg.mono hfirst.suffix))
  | noArgument hend => exact .noArgument (hg.endsCall.trans hend)
  | argument hmore harg _ iha ih =>
    exact .argument (hg.endsCall.trans hmore) (iha hg) (ih (hg.mono harg.suffix))
  | comma ht _ ih =>
    obtain ⟨hgt, hg⟩ := hg.cons
    exact .comma ((hgt.sign _ (by decide)).2 ht) (ih hg)
  | noComma hcomma _ ih => exact .noComma ((hg.hasText (by decide)).trans hcomma) (ih hg)
  | operation hfirst hop _ ihf ih =>
    have hmid := hg.mono hfirst.suffix
    exact .operation (ihf hg) ((hmid.hasKind _).trans hop) (ih hmid)
  | call hfirst hop _ ihf ih =>
    have hmid := hg.mono hfirst.suffix
    rw [List.map_singleton, callNode_relocate]
    exact .call (ihf hg) ((hmid.hasKind _).trans hop) (ih hmid)
  | plain h hop ih => exact .plain (ih hg) (((hg.mono h.suffix).hasKind _).trans hop)
  | nested hlhs hop _ ihl ih =>
    obtain ⟨hgo, hmid⟩ := (hg.mono hlhs.suffix).cons
    rw [List.map_singleton, hgo.binaryNode (by rw [hop]; decide)]
    exact .nested (ihl hg) (hgo.kind.trans hop) (ih hmid)
  | newline ht _ ih =>
    obtain ⟨hgt, hg⟩ := hg.cons
    exact .newline (hgt.kind.trans ht) (ih hg)
  | noStatement hline hend =>
    exact .noStatement ((hg.hasKind _).trans hline) (hg.opensStatement.trans hend)
  | statement hline hmore hn _ ihn ih =>
    exact .statement ((hg.hasKind _).trans hline) (hg.opensStatement.trans hmore) (ihn hg)
      (ih (hg.mono hn.suffix))
  | semicolon ht _ ih =>
    obtain ⟨hgt, hg⟩ := hg.cons
    exact .semicolon ((hgt.sign _ (by decide)).2 ht) (ih hg)
  | noSemicolon hsemi _ ih => exact .noSemicolon ((hg.hasText (by decide)).trans hsemi) (ih hg)

/-- Relabeled tokens are no more readable than they were: the same thing is expected. -/
theorem Stuck.relabel (h : Stuck forms phrase input x rest) (hg : RelabelsAll f g input) :
    Stuck forms (phrase.relocate f) (input.map g) x (rest.map g) := by
  induction h with
  | noValue hform => exact .noValue (hg.nextForm.trans hform)
  | @integer t ts hform hlarge =>
    obtain ⟨ht, -⟩ := hg.cons
    have hkind : t.kind = .integer := Token.hasKind_eq_true.1 (leads_of_formAt hform)
    refine .integer (ht.formAt.trans hform) ?_
    rwa [integerOf, ht.text (by rw [hkind]; decide)]
  | group hform _ ih => exact .group (hg.nextForm.trans hform) (ih hg)
  | block hform _ ih =>
    obtain ⟨ht, hg⟩ := hg.cons
    exact .block (ht.formAt.trans hform) (ih hg)
  | openBlock hform hns hopen =>
    obtain ⟨ht, hg⟩ := hg.cons
    exact .openBlock (ht.formAt.trans hform) (hns.relabel hg)
      (((hg.mono hns.suffix).hasText (by decide)).trans hopen)
  | quoted hform _ ih =>
    obtain ⟨ht, hg⟩ := hg.cons
    exact .quoted (ht.formAt.trans hform) (ih hg)
  | unquote hform _ ih =>
    obtain ⟨ht, hg⟩ := hg.cons
    exact .unquote (ht.formAt.trans hform) (ih hg)
  | noParens hnone => exact .noParens ((hg.hasText (by decide)).trans hnone)
  | parens htext _ ih =>
    obtain ⟨ht, hg⟩ := hg.cons
    exact .parens ((ht.sign _ (by decide)).2 htext) (ih hg)
  | openParens htext hn hopen =>
    obtain ⟨ht, hg⟩ := hg.cons
    exact .openParens ((ht.sign _ (by decide)).2 htext) (hn.relabel hg)
      (((hg.mono hn.suffix).hasText (by decide)).trans hopen)
  | noName htext hnone =>
    obtain ⟨ht, hg⟩ := hg.cons
    exact .noName ((ht.sign _ (by decide)).2 htext) ((hg.hasKind _).trans hnone)
  | property ht hu _ ih =>
    obtain ⟨hgt, hg⟩ := hg.cons
    obtain ⟨hgu, hg⟩ := hg.cons
    refine .property ((hgt.sign _ (by decide)).2 ht) (hgu.kind.trans hu) ?_
    exact hgu.propertyNode (by rw [hu]; decide) _ ▸ ih hg
  | base _ ih => exact .base (ih hg)
  | properties hbase _ ih => exact .properties (hbase.relabel hg) (ih (hg.mono hbase.suffix))
  | rightOperand hop _ ih =>
    obtain ⟨hgo, hg⟩ := hg.cons
    exact .rightOperand (hgo.kind.trans hop) (ih hg)
  | operand hop hrhs _ ih =>
    obtain ⟨hgo, hg⟩ := hg.cons
    refine .operand (hgo.kind.trans hop) (hrhs.relabel hg) ?_
    exact hgo.binaryNode (by rw [hop]; decide) _ _ ▸ ih (hg.mono hrhs.suffix)
  | firstOperand _ ih => exact .firstOperand (ih hg)
  | chain hfirst _ ih => exact .chain (hfirst.relabel hg) (ih (hg.mono hfirst.suffix))
  | firstArgument hmore _ ih => exact .firstArgument (hg.endsCall.trans hmore) (ih hg)
  | argument hmore harg _ ih =>
    exact .argument (hg.endsCall.trans hmore) (harg.relabel hg) (ih (hg.mono harg.suffix))
  | comma ht _ ih =>
    obtain ⟨hgt, hg⟩ := hg.cons
    exact .comma ((hgt.sign _ (by decide)).2 ht) (ih hg)
  | noComma hcomma _ ih => exact .noComma ((hg.hasText (by decide)).trans hcomma) (ih hg)
  | callee _ ih => exact .callee (ih hg)
  | operation hfirst hop _ ih =>
    have hmid := hg.mono hfirst.suffix
    exact .operation (hfirst.relabel hg) ((hmid.hasKind _).trans hop) (ih hmid)
  | call hfirst hop _ ih =>
    have hmid := hg.mono hfirst.suffix
    exact .call (hfirst.relabel hg) ((hmid.hasKind _).trans hop) (ih hmid)
  | lhs _ ih => exact .lhs (ih hg)
  | nested hlhs hop _ ih =>
    obtain ⟨hgo, hmid⟩ := (hg.mono hlhs.suffix).cons
    exact .nested (hlhs.relabel hg) (hgo.kind.trans hop) (ih hmid)
  | newline ht _ ih =>
    obtain ⟨hgt, hg⟩ := hg.cons
    exact .newline (hgt.kind.trans ht) (ih hg)
  | firstStatement hline hmore _ ih =>
    exact .firstStatement ((hg.hasKind _).trans hline) (hg.opensStatement.trans hmore) (ih hg)
  | statement hline hmore hn _ ih =>
    exact .statement ((hg.hasKind _).trans hline) (hg.opensStatement.trans hmore) (hn.relabel hg)
      (ih (hg.mono hn.suffix))
  | semicolon ht _ ih =>
    obtain ⟨hgt, hg⟩ := hg.cons
    exact .semicolon ((hgt.sign _ (by decide)).2 ht) (ih hg)
  | noSemicolon hsemi _ ih => exact .noSemicolon ((hg.hasText (by decide)).trans hsemi) (ih hg)

end Parser
end Juxta
