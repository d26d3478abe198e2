import Juxta.Proofs.Parser.Agreement
import Juxta.Proofs.Parser.Shape

/-!
# No token is lost

A tree is written down again by writing its leaves in order, and around and between them the marks
that its kinds of nodes call for.  The tree of a program, so written, is the token list that it was
read from, less the tokens that only separate: line ends, semicolons and commas.

The same walk over the tree gives the place of each node in the written list, and there stands the
token at which the node starts.

## What is here

* `Terminal` — what a token says, its place aside.
* `Node.yield` — the terminals of a tree, in order.
* `Node.placed` — the nodes of a tree, each with the index at which its terminals begin.
* `Covers ns ts` — the trees are written as `ts`, and their nodes start where they are written.
* `Reads.covers` — trees that are read cover the tokens that they were read from.
* `program_sound` — what a program is parsed to.
-/

set_option autoImplicit false
namespace Juxta

/-! ## Terminals -/

/-- What a token says: a mark, or a leaf with its kind and what it holds. -/
inductive Terminal where
  | mark (text : String)
  | leaf (kind : Node.Kind) (payload : Node.Payload)

namespace Token

/-- What a token says.  The payload of a leaf is decoded from the text. -/
def terminal (t : Token) : Terminal :=
  match t.kind with
  | .ident => .leaf .identifier (.str t.text)
  | .integer => .leaf .integer (.int (Parser.integerOf t))
  | .float => .leaf .float (.float ((Decimal.readFloat? t.text).getD 0))
  | .string => .leaf .string (.str (Parser.stringBody t))
  | .leftOperator | .rightOperator => .leaf .operator (.str t.text)
  | _ => .mark t.text

/-- Whether a token only separates what stands around it. -/
def isSeparator (t : Token) : Bool :=
  t.kind = .newline || t.text = ";" || t.text = ","

/-- The tokens that do not only separate. -/
def significant (ts : List Token) : List Token :=
  ts.filter (!·.isSeparator)

@[simp] theorem significant_nil : significant [] = [] := rfl

@[simp] theorem significant_append (ts us : List Token) :
    significant (ts ++ us) = significant ts ++ significant us :=
  List.filter_append ..

theorem significant_cons_of_separator {t : Token} (h : t.isSeparator = true) (ts : List Token) :
    significant (t :: ts) = significant ts :=
  List.filter_cons_of_neg (by simp [h])

theorem significant_cons {t : Token} (h : t.isSeparator = false) (ts : List Token) :
    significant (t :: ts) = t :: significant ts :=
  List.filter_cons_of_pos (by simp [h])

end Token

/-! ## Writing trees down -/

namespace Node.Kind

/-- The marks in front of the children of a node. -/
def opening : Kind → List Terminal
  | .parenthesis => [.mark "("]
  | .block => [.mark "\x7b"]
  | .quoted => [.mark ":"]
  | .unquote => [.mark "$"]
  | _ => []

/-- The marks between two children of a node. -/
def joint : Kind → List Terminal
  | .propertyAccess => [.mark "."]
  | _ => []

/-- The marks behind the children of a node. -/
def closing : Kind → List Terminal
  | .parenthesis => [.mark ")"]
  | .block => [.mark "\x7d"]
  | _ => []

end Node.Kind

namespace Node

mutual

/-- The terminals of a tree, in order. -/
def yield : Node → List Terminal
  | leaf k p _ => [.leaf k p]
  | branch k cs _ => k.opening ++ yieldAll k.joint cs ++ k.closing

/-- The terminals of some trees, in order, with the same marks between any two of them. -/
def yieldAll (joint : List Terminal) : List Node → List Terminal
  | [] => []
  | [n] => yield n
  | n :: m :: ns => yield n ++ joint ++ yieldAll joint (m :: ns)

end

mutual

/-- The nodes of a tree that is written from index `i` on, each with the index at which it is
written, before those below it. -/
def placed (i : Nat) : Node → List (Nat × Node)
  | leaf k p s => [(i, leaf k p s)]
  | branch k cs s =>
    (i, branch k cs s) :: placedAll k.joint.length (i + k.opening.length) cs

/-- The nodes of some trees that are written from index `i` on, with gaps between them. -/
def placedAll (gap i : Nat) : List Node → List (Nat × Node)
  | [] => []
  | n :: ns => placed i n ++ placedAll gap (i + (yield n).length + gap) ns

end

theorem mem_placed_self (i : Nat) (n : Node) : (i, n) ∈ n.placed i := by
  cases n with
  | leaf => exact List.mem_cons_self
  | branch => exact List.mem_cons_self

theorem yieldAll_cons (n : Node) (ns : List Node) :
    yieldAll [] (n :: ns) = n.yield ++ yieldAll [] ns := by
  cases ns with
  | nil => rw [yieldAll, yieldAll, List.append_nil]
  | cons m ns => rw [yieldAll, List.append_nil]

theorem yieldAll_append (ns ms : List Node) :
    yieldAll [] (ns ++ ms) = yieldAll [] ns ++ yieldAll [] ms := by
  induction ns with
  | nil => rfl
  | cons n ns ih => rw [List.cons_append, yieldAll_cons, yieldAll_cons, ih, List.append_assoc]

theorem placedAll_append (i : Nat) (ns ms : List Node) :
    placedAll 0 i (ns ++ ms) =
      placedAll 0 i ns ++ placedAll 0 (i + (yieldAll [] ns).length) ms := by
  induction ns generalizing i with
  | nil => rfl
  | cons n ns ih =>
    rw [List.cons_append, placedAll, placedAll, ih, List.append_assoc, yieldAll_cons,
      List.length_append, Nat.add_zero, Nat.add_assoc]

end Node

namespace Parser

open Node (yieldAll placedAll)
open Token (significant)

/-! ## Trees over tokens -/

/-- A node that is written at index `i` of a token list starts where the token there does. -/
def StartsAt (ts : List Token) (i : Nat) (n : Node) : Prop :=
  ∃ t, ts[i]? = some t ∧ n.start = some t.pos

/-- The trees are written as `ts`; and whatever is written before and after, each of their nodes
starts where it is written. -/
structure Covers (ns : List Node) (ts : List Token) : Prop where
  yield_eq : yieldAll [] ns = ts.map Token.terminal
  startsAt : ∀ before after i m, (i, m) ∈ placedAll 0 before.length ns →
    StartsAt (before ++ ts ++ after) i m

namespace Covers

variable {n : Node} {ns ms : List Node} {ts us : List Token}

theorem nil : Covers [] [] :=
  ⟨rfl, fun _ _ _ _ h => absurd h List.not_mem_nil⟩

theorem eq_nil (h : Covers [] ts) : ts = [] :=
  List.map_eq_nil_iff.1 h.yield_eq.symm

theorem length_eq (h : Covers ns ts) : (yieldAll [] ns).length = ts.length := by
  rw [h.yield_eq, List.length_map]

theorem append (h : Covers ns ts) (h' : Covers ms us) : Covers (ns ++ ms) (ts ++ us) := by
  refine ⟨?_, fun before after i m hm => ?_⟩
  · rw [Node.yieldAll_append, h.yield_eq, h'.yield_eq, List.map_append]
  · rw [Node.placedAll_append, h.length_eq, ← List.length_append, List.mem_append] at hm
    rcases hm with hm | hm
    · simpa using h.startsAt before (us ++ after) i m hm
    · simpa using h'.startsAt (before ++ ts) after i m hm

/-- A tree starts where the first of its tokens does. -/
theorem start_eq (h : Covers [n] ts) : ∃ t ts', ts = t :: ts' ∧ n.start = some t.pos := by
  have hmem : (0, n) ∈ placedAll 0 0 [n] := List.mem_append_left _ (Node.mem_placed_self 0 n)
  obtain ⟨t, ht, hstart⟩ := h.startsAt [] [] 0 n hmem
  rw [List.nil_append, List.append_nil] at ht
  cases ts with
  | nil => cases ht
  | cons u us => exact ⟨u, us, rfl, Option.some.inj ht ▸ hstart⟩

theorem getElem?_length (before ts : List Token) : (before ++ ts)[before.length]? = ts.head? := by
  rw [List.getElem?_append_right (Nat.le_refl _), Nat.sub_self, List.head?_eq_getElem?]

theorem leaf {t : Token} {k : Node.Kind} {p : Node.Payload} (h : t.terminal = .leaf k p) :
    Covers [.leaf k p (some t.pos)] [t] := by
  refine ⟨?_, fun before after i m hm => ?_⟩
  · rw [yieldAll, Node.yield, List.map_singleton, h]
  · rw [placedAll, Node.placed, placedAll, List.append_nil, List.mem_singleton] at hm
    obtain ⟨rfl, rfl⟩ := Prod.mk.inj hm
    exact ⟨t, by simp, rfl⟩

/-- A node with marks around its children starts at the first of its tokens. -/
theorem branch {k : Node.Kind} {t : Token} (os cs : List Token) (hjoint : k.joint = [])
    (hos : k.opening = os.map Token.terminal) (hcs : k.closing = cs.map Token.terminal)
    (h : Covers ns ts) (ht : (os ++ ts).head? = some t) :
    Covers [.branch k ns (some t.pos)] (os ++ ts ++ cs) := by
  refine ⟨?_, fun before after i m hm => ?_⟩
  · rw [yieldAll, Node.yield, hjoint, h.yield_eq, hos, hcs, List.map_append, List.map_append]
  · rw [placedAll, Node.placed, placedAll, List.append_nil, hjoint, List.length_nil, hos,
      List.length_map, ← List.length_append, List.mem_cons] at hm
    rcases hm with hm | hm
    · obtain ⟨rfl, rfl⟩ := Prod.mk.inj hm
      rw [List.append_assoc]
      refine ⟨t, ?_, rfl⟩
      rw [getElem?_length, List.append_assoc, List.head?_append, ht]
      rfl
    · simpa using h.startsAt (before ++ os) (cs ++ after) i m hm

/-- A property access is written as its base, a point and a name. -/
theorem property {base : Node} {t u : Token} {name : String} (h : Covers [base] ts)
    (ht : t.terminal = .mark ".") (hu : u.terminal = .leaf .identifier (.str name)) :
    Covers [.branch .propertyAccess [base, .leaf .identifier (.str name) (some u.pos)] base.start]
      (ts ++ [t, u]) := by
  obtain ⟨t₀, ts', rfl, hstart⟩ := h.start_eq
  have hyield : base.yield = (t₀ :: ts').map Token.terminal := h.yield_eq
  refine ⟨?_, fun before after i m hm => ?_⟩
  · simp [yieldAll, Node.yield, Node.Kind.opening, Node.Kind.joint, Node.Kind.closing, hyield, ht,
      hu]
  · have hlength : base.yield.length = (t₀ :: ts').length := by rw [hyield, List.length_map]
    simp only [placedAll, Node.placed, List.append_nil, List.mem_cons, List.mem_append,
      List.not_mem_nil, or_false, hlength] at hm
    rcases hm with hm | hm | hm
    · obtain ⟨rfl, rfl⟩ := Prod.mk.inj hm
      exact ⟨t₀, by simp, hstart⟩
    · have hmem : (i, m) ∈ placedAll 0 before.length [base] := List.mem_append_left _ hm
      simpa using h.startsAt before ([t, u] ++ after) i m hmem
    · obtain ⟨rfl, rfl⟩ := Prod.mk.inj hm
      refine ⟨u, ?_, rfl⟩
      have hsplit : before ++ (t₀ :: ts' ++ [t, u]) ++ after =
          (before ++ (t₀ :: ts') ++ [t]) ++ (u :: after) := by simp
      have hindex : before.length + Node.Kind.propertyAccess.opening.length +
          (t₀ :: ts').length + Node.Kind.propertyAccess.joint.length =
            (before ++ (t₀ :: ts') ++ [t]).length := by
        simp only [List.length_append]
        rfl
      rw [hindex, hsplit, getElem?_length]
      rfl

end Covers

/-! ## What the tokens of a source say -/

variable {t : Token}

/-- A token that does not only separate, but stands for a terminal. -/
structure StandsFor (t : Token) (term : Terminal) : Prop where
  terminal_eq : t.terminal = term
  not_separator : t.isSeparator = false

theorem not_separator_of_kind (h : t.Lexical) (hpunct : t.kind ≠ .punctuation)
    (hline : t.kind ≠ .newline) : t.isSeparator = false := by
  have hsemi : t.text ≠ ";" := fun htext => hpunct (h.kind_of_text (c := ';') rfl htext)
  have hcomma : t.text ≠ "," := fun htext => hpunct (h.kind_of_text (c := ',') rfl htext)
  simp [Token.isSeparator, hline, hsemi, hcomma]

/-- A punctuation mark that does not separate stands for itself. -/
theorem standsFor_mark {c : Char} (h : t.Lexical) (hc : Token.isPunctuation c = true)
    (hsemi : c ≠ ';') (hcomma : c ≠ ',') (htext : t.text = String.ofList [c]) :
    StandsFor t (.mark (String.ofList [c])) := by
  have hkind := h.kind_of_text hc htext
  refine ⟨?_, ?_⟩
  · rw [Token.terminal, hkind, htext]
  · have hne {d : Char} (hd : c ≠ d) : String.ofList [c] ≠ String.ofList [d] := by
      simpa [String.ofList_inj] using hd
    have hsemi : t.text ≠ ";" := htext ▸ hne hsemi
    have hcomma : t.text ≠ "," := htext ▸ hne hcomma
    simp [Token.isSeparator, hkind, hsemi, hcomma]

theorem standsFor_quote (h : t.Lexical) (hk : t.kind = .quote) : StandsFor t (.mark ":") := by
  refine ⟨?_, not_separator_of_kind h (by simp [hk]) (by simp [hk])⟩
  rw [Token.terminal, hk, h.text_of_quote hk]

theorem standsFor_unquote (h : t.Lexical) (hk : t.kind = .unquote) : StandsFor t (.mark "$") := by
  refine ⟨?_, not_separator_of_kind h (by simp [hk]) (by simp [hk])⟩
  rw [Token.terminal, hk, h.text_of_unquote hk]

theorem standsFor_name (h : t.Lexical) (hk : t.kind = .ident) :
    StandsFor t (.leaf .identifier (.str t.text)) := by
  refine ⟨?_, not_separator_of_kind h (by simp [hk]) (by simp [hk])⟩
  rw [Token.terminal, hk]

theorem standsFor_operator (h : t.Lexical) (hk : t.kind = .leftOperator ∨ t.kind = .rightOperator) :
    StandsFor t (.leaf .operator (.str t.text)) := by
  rcases hk with hk | hk
  all_goals
    refine ⟨?_, not_separator_of_kind h (by simp [hk]) (by simp [hk])⟩
    rw [Token.terminal, hk]

theorem covers_of_leaf? {form : ValueForm} {n : Node} (h : t.Lexical) (hform : form.leads t = true)
    (hleaf : form.leaf? t = some n) : Covers [n] [t] ∧ t.isSeparator = false := by
  cases form with
  | identifier | float | string =>
    have hk := Token.hasKind_eq_true.1 hform
    refine ⟨?_, not_separator_of_kind h (by simp [hk]) (by simp [hk])⟩
    obtain rfl := Option.some.inj hleaf
    exact .leaf (by rw [Token.terminal, hk])
  | integer =>
    have hk := Token.hasKind_eq_true.1 hform
    refine ⟨?_, not_separator_of_kind h (by simp [hk]) (by simp [hk])⟩
    rw [ValueForm.leaf?] at hleaf
    split at hleaf
    · cases hleaf
    · obtain rfl := Option.some.inj hleaf
      exact .leaf (by rw [Token.terminal, hk])
  | parens | block | quoted | unquote => cases hleaf

namespace Covers

variable {ns : List Node} {ts us : List Token}

/-- A mark in front of some trees makes a node of them. -/
theorem mark {k : Node.Kind} {o : Terminal} (hjoint : k.joint = []) (hopen : k.opening = [o])
    (hclose : k.closing = []) (h : Covers ns (significant ts)) (ht : StandsFor t o) :
    Covers [nodeAt k t ns] (significant (t :: ts)) := by
  rw [Token.significant_cons ht.not_separator]
  have hos : k.opening = [t].map Token.terminal := by rw [hopen, List.map_singleton, ht.terminal_eq]
  have hcovers := h.branch [t] [] hjoint hos hclose rfl
  rw [List.append_nil] at hcovers
  exact hcovers

/-- Two marks around some trees make a node of them. -/
theorem enclose {k : Node.Kind} {o c : Terminal} {u : Token} (hjoint : k.joint = [])
    (hopen : k.opening = [o]) (hclose : k.closing = [c]) (h : Covers ns (significant ts))
    (ht : StandsFor t o) (hu : StandsFor u c) :
    Covers [nodeAt k t ns] (significant (t :: (ts ++ [u]))) := by
  rw [Token.significant_cons ht.not_separator, Token.significant_append,
    Token.significant_cons hu.not_separator]
  have hos : k.opening = [t].map Token.terminal := by
    rw [hopen, List.map_singleton, ht.terminal_eq]
  have hcs : k.closing = [u].map Token.terminal := by
    rw [hclose, List.map_singleton, hu.terminal_eq]
  exact h.branch [t] [u] hjoint hos hcs rfl

/-- An operator between two trees makes a node of them. -/
theorem binary {lhs rhs : Node} {op : Token} (h : Covers [lhs] ts)
    (hop : StandsFor op (.leaf .operator (.str op.text))) (h' : Covers [rhs] us) :
    Covers [binaryNode lhs op rhs] (ts ++ op :: us) := by
  obtain ⟨t, ts', rfl, hstart⟩ := h.start_eq
  have hcovers := (h.append ((Covers.leaf hop.terminal_eq).append h')).branch (k := .binary) [] []
    rfl rfl rfl rfl
  rw [binaryNode, hstart, textLeaf]
  simpa using hcovers

/-- A callee and its arguments make a call. -/
theorem call {callee : Node} {args : List Node} (h : Covers [callee] ts) (h' : Covers args us) :
    Covers [callNode callee args] (ts ++ us) := by
  rw [callNode]
  split
  · next hargs =>
    rw [List.isEmpty_iff] at hargs
    subst hargs
    rw [h'.eq_nil, List.append_nil]
    exact h
  · obtain ⟨t, ts', rfl, hstart⟩ := h.start_eq
    have hcovers := (h.append h').branch (k := .functionCall) [] [] rfl rfl rfl rfl
    rw [hstart]
    simpa using hcovers

end Covers

/-! ## Readings cover their tokens -/

/-- The tree that a phrase goes on from, if it goes on from one. -/
def Phrase.base : Phrase → List Node
  | properties base => [base]
  | operands lhs => [lhs]
  | _ => []

variable {forms : List ValueForm} {phrase : Phrase} {input rest : List Token} {ns : List Node}

/-- **Trees that are read cover the tokens that they were read from**, less those that only
separate.  Where a phrase goes on from a tree, that tree covers tokens before them. -/
theorem Reads.covers (h : Reads forms phrase input ns rest) (hlex : ∀ t ∈ input, t.Lexical) :
    ∃ pre, input = pre ++ rest ∧
      ∀ ts, Covers phrase.base ts → Covers ns (ts ++ significant pre) := by
  induction h with
  | @leaf t ts form n hform hleaf =>
    have ht : t.Lexical := hlex t List.mem_cons_self
    obtain ⟨hcovers, hsep⟩ := covers_of_leaf? ht (leads_of_formAt hform) hleaf
    refine ⟨[t], rfl, fun us hus => ?_⟩
    rw [hus.eq_nil, Token.significant_cons hsep]
    exact hcovers
  | group _ _ ih => exact ih hlex
  | @block t u ts rest ns hform h hu ih =>
    obtain ⟨ht, hlex⟩ := List.forall_mem_cons.1 hlex
    have htext : t.text = "\x7b" := Token.hasText_eq_true.1 (leads_of_formAt hform)
    obtain ⟨pre, rfl, hc⟩ := ih hlex
    refine ⟨t :: (pre ++ [u]), by simp, fun us hus => ?_⟩
    have hulex : u.Lexical := hlex u (List.mem_append_right _ List.mem_cons_self)
    have hopen := standsFor_mark (c := '\x7b') ht rfl (by decide) (by decide) htext
    have hclose := standsFor_mark (c := '\x7d') hulex rfl (by decide) (by decide) hu
    rw [hus.eq_nil]
    exact (hc [] .nil).enclose rfl rfl rfl hopen hclose
  | @quoted t ts rest n hform h ih =>
    obtain ⟨ht, hlex⟩ := List.forall_mem_cons.1 hlex
    obtain ⟨pre, rfl, hc⟩ := ih hlex
    refine ⟨t :: pre, rfl, fun us hus => ?_⟩
    have hopen := standsFor_quote ht (Token.hasKind_eq_true.1 (leads_of_formAt hform))
    rw [hus.eq_nil]
    exact (hc [] .nil).mark rfl rfl rfl hopen
  | @unquote t ts rest n hform h ih =>
    obtain ⟨ht, hlex⟩ := List.forall_mem_cons.1 hlex
    obtain ⟨pre, rfl, hc⟩ := ih hlex
    refine ⟨t :: pre, rfl, fun us hus => ?_⟩
    have hopen := standsFor_unquote ht (Token.hasKind_eq_true.1 (leads_of_formAt hform))
    rw [hus.eq_nil]
    exact (hc [] .nil).mark rfl rfl rfl hopen
  | @parens t u ts rest n htext h hu ih =>
    obtain ⟨ht, hlex⟩ := List.forall_mem_cons.1 hlex
    obtain ⟨pre, rfl, hc⟩ := ih hlex
    refine ⟨t :: (pre ++ [u]), by simp, fun us hus => ?_⟩
    have hulex : u.Lexical := hlex u (List.mem_append_right _ List.mem_cons_self)
    have hopen := standsFor_mark (c := '(') ht rfl (by decide) (by decide) htext
    have hclose := standsFor_mark (c := ')') hulex rfl (by decide) (by decide) hu
    rw [hus.eq_nil]
    exact (hc [] .nil).enclose rfl rfl rfl hopen hclose
  | noProperty => exact ⟨[], rfl, fun ts hts => (List.append_nil ts).symm ▸ hts⟩
  | @property base t u ts rest ns htext hu _ ih =>
    obtain ⟨ht, hlex⟩ := List.forall_mem_cons.1 hlex
    obtain ⟨hulex, hlex⟩ := List.forall_mem_cons.1 hlex
    obtain ⟨pre, rfl, hc⟩ := ih hlex
    refine ⟨t :: u :: pre, rfl, fun us hus => ?_⟩
    have hpoint := standsFor_mark (c := '.') ht rfl (by decide) (by decide) htext
    have hname := standsFor_name hulex hu
    rw [Token.significant_cons hpoint.not_separator, Token.significant_cons hname.not_separator]
    simpa using hc _ (hus.property hpoint.terminal_eq hname.terminal_eq)
  | propertyOrValue hbase _ ihb ih =>
    obtain ⟨pre₁, rfl, hcb⟩ := ihb hlex
    obtain ⟨pre₂, rfl, hc⟩ := ih (fun t ht => hlex t (List.mem_append_right _ ht))
    refine ⟨pre₁ ++ pre₂, by simp, fun us hus => ?_⟩
    rw [hus.eq_nil, Token.significant_append]
    exact hc _ (hcb [] .nil)
  | noOperand => exact ⟨[], rfl, fun ts hts => (List.append_nil ts).symm ▸ hts⟩
  | @operand lhs rhs op ts mid rest ns hop hrhs _ ihr ih =>
    obtain ⟨hoplex, hlex⟩ := List.forall_mem_cons.1 hlex
    obtain ⟨pre₁, rfl, hcr⟩ := ihr hlex
    obtain ⟨pre₂, rfl, hc⟩ := ih (fun t ht => hlex t (List.mem_append_right _ ht))
    refine ⟨op :: (pre₁ ++ pre₂), by simp, fun us hus => ?_⟩
    have hsays := standsFor_operator hoplex (.inl hop)
    rw [Token.significant_cons hsays.not_separator, Token.significant_append]
    simpa using hc _ (hus.binary hsays (hcr [] .nil))
  | chain hfirst _ ihf ih =>
    obtain ⟨pre₁, rfl, hcf⟩ := ihf hlex
    obtain ⟨pre₂, rfl, hc⟩ := ih (fun t ht => hlex t (List.mem_append_right _ ht))
    refine ⟨pre₁ ++ pre₂, by simp, fun us hus => ?_⟩
    rw [hus.eq_nil, Token.significant_append]
    exact hc _ (hcf [] .nil)
  | noArgument => exact ⟨[], rfl, fun ts hts => (List.append_nil ts).symm ▸ hts⟩
  | argument _ _ _ iha ih =>
    obtain ⟨pre₁, rfl, hca⟩ := iha hlex
    obtain ⟨pre₂, rfl, hc⟩ := ih (fun t ht => hlex t (List.mem_append_right _ ht))
    refine ⟨pre₁ ++ pre₂, by simp, fun us hus => ?_⟩
    rw [hus.eq_nil, Token.significant_append]
    exact (hca [] .nil).append (hc [] .nil)
  | @comma t ts rest args ht _ ih =>
    obtain ⟨pre, rfl, hc⟩ := ih (List.forall_mem_cons.1 hlex).2
    refine ⟨t :: pre, rfl, ?_⟩
    rw [Token.significant_cons_of_separator (by simp [Token.isSeparator, ht])]
    exact hc
  | noComma _ _ ih => exact ih hlex
  | operation hfirst _ _ ihf ih =>
    obtain ⟨pre₁, rfl, hcf⟩ := ihf hlex
    obtain ⟨pre₂, rfl, hc⟩ := ih (fun t ht => hlex t (List.mem_append_right _ ht))
    refine ⟨pre₁ ++ pre₂, by simp, fun us hus => ?_⟩
    rw [hus.eq_nil, Token.significant_append]
    exact hc _ (hcf [] .nil)
  | call hfirst _ _ ihf ih =>
    obtain ⟨pre₁, rfl, hcf⟩ := ihf hlex
    obtain ⟨pre₂, rfl, hc⟩ := ih (fun t ht => hlex t (List.mem_append_right _ ht))
    refine ⟨pre₁ ++ pre₂, by simp, fun us hus => ?_⟩
    rw [hus.eq_nil, Token.significant_append]
    exact (hcf [] .nil).call (hc [] .nil)
  | plain _ _ ih => exact ih hlex
  | @nested input mid rest lhs rhs op hlhs hop _ ihl ih =>
    obtain ⟨pre₁, rfl, hcl⟩ := ihl hlex
    have hmid : ∀ t ∈ op :: mid, t.Lexical := fun t ht => hlex t (List.mem_append_right _ ht)
    obtain ⟨hoplex, hmid⟩ := List.forall_mem_cons.1 hmid
    obtain ⟨pre₂, rfl, hc⟩ := ih hmid
    refine ⟨pre₁ ++ op :: pre₂, by simp, fun us hus => ?_⟩
    have hsays := standsFor_operator hoplex (.inr hop)
    rw [hus.eq_nil, Token.significant_append, Token.significant_cons hsays.not_separator]
    exact (hcl [] .nil).binary hsays (hc [] .nil)
  | @newline t ts rest ns ht _ ih =>
    obtain ⟨pre, rfl, hc⟩ := ih (List.forall_mem_cons.1 hlex).2
    refine ⟨t :: pre, rfl, ?_⟩
    rw [Token.significant_cons_of_separator (by simp [Token.isSeparator, ht])]
    exact hc
  | noStatement => exact ⟨[], rfl, fun ts hts => (List.append_nil ts).symm ▸ hts⟩
  | statement _ _ _ _ ihn ih =>
    obtain ⟨pre₁, rfl, hcn⟩ := ihn hlex
    obtain ⟨pre₂, rfl, hc⟩ := ih (fun t ht => hlex t (List.mem_append_right _ ht))
    refine ⟨pre₁ ++ pre₂, by simp, fun us hus => ?_⟩
    rw [hus.eq_nil, Token.significant_append]
    exact (hcn [] .nil).append (hc [] .nil)
  | @semicolon t ts rest ns ht _ ih =>
    obtain ⟨pre, rfl, hc⟩ := ih (List.forall_mem_cons.1 hlex).2
    refine ⟨t :: pre, rfl, ?_⟩
    rw [Token.significant_cons_of_separator (by simp [Token.isSeparator, ht])]
    exact hc
  | noSemicolon _ _ ih => exact ih hlex

/-! ## Programs -/

theorem tokenize_of_parse {mode : Mode} {source : String} {node : Node}
    (h : parse mode source = .ok node) :
    ∃ tokens s, Token.tokenize source = .ok tokens ∧
      parseTokens .standard mode tokens = .ok node s := by
  rw [parse, parseSource] at h
  split at h
  · cases h
  · next tokens htokens =>
    split at h
    · next node' s hparse =>
      obtain rfl := Except.ok.inj h
      exact ⟨tokens, s, htokens, hparse⟩
    · cases h

theorem exists_ok_of_isOk {ε α : Type} {r : Except ε α} (h : r.isOk = true) : ∃ a, r = .ok a := by
  cases r with
  | error => cases h
  | ok a => exact ⟨a, rfl⟩

/-- **Parsing a program is sound and loses no token.**  The tree of a program is a list of
expressions of the grammar; in it exactly the kinds of leaves hold a payload, and integers are in
range; written down in order it is the token list of the source, less the tokens that only separate;
and every node below the root starts at the first token that it is written with. -/
theorem program_sound {source : String} {tokens : List Token} {node : Node}
    (htokens : Token.tokenize source = .ok tokens) (hparse : parse .program source = .ok node) :
    (∃ ns, node = .branch .program ns none ∧ ∀ n ∈ ns, HasShape .expression n) ∧
      (∀ m ∈ node.subtrees, HoldsPayload m) ∧
      node.yield = (significant tokens).map Token.terminal ∧
      ∀ i m, (i, m) ∈ (node.placed 0).tail → StartsAt (significant tokens) i m := by
  obtain ⟨tokens', s, htokens', hparse⟩ := tokenize_of_parse hparse
  obtain rfl := Except.ok.inj (htokens.symm.trans htokens')
  obtain ⟨-, -, ns, rfl, hread⟩ := reads_of_parseTokens hparse
  have hlex := Token.lexical_of_tokenize htokens
  have hshape := hread.hasShape hlex trivial
  obtain ⟨pre, hpre, hcovers⟩ := hread.covers hlex
  have hcovers : Covers ns (significant pre) := hcovers [] .nil
  rw [List.append_nil] at hpre
  subst hpre
  refine ⟨⟨ns, rfl, hshape⟩, ?_, ?_, fun i m hm => ?_⟩
  · exact forall_mem_subtrees_branch (.branch rfl _ _) fun n hn => (hshape n hn).holdsPayload
  · rw [Node.yield, ← hcovers.yield_eq]
    simp [Node.Kind.opening, Node.Kind.joint, Node.Kind.closing]
  · simpa using hcovers.startsAt [] [] i m hm

/-- A source with each kind of node but numbers with a point and strings, and each separator. -/
theorem program_sound_nested :
    ∃ tokens node, Token.tokenize "a.b := \x7bf 1, :x + 2; $(y)\x7d\nz" = .ok tokens ∧
      parse .program "a.b := \x7bf 1, :x + 2; $(y)\x7d\nz" = .ok node ∧
      node.yield = (significant tokens).map Token.terminal ∧
      ∀ i m, (i, m) ∈ (node.placed 0).tail → StartsAt (significant tokens) i m := by
  have htokens : (Token.tokenize "a.b := \x7bf 1, :x + 2; $(y)\x7d\nz").isOk = true := by
    decide +kernel
  have hparse : (parse .program "a.b := \x7bf 1, :x + 2; $(y)\x7d\nz").isOk = true := by
    decide +kernel
  obtain ⟨tokens, htokens⟩ := exists_ok_of_isOk htokens
  obtain ⟨node, hparse⟩ := exists_ok_of_isOk hparse
  obtain ⟨-, -, hyield, hstart⟩ := program_sound htokens hparse
  exact ⟨tokens, node, htokens, hparse, hyield, hstart⟩

end Parser
end Juxta
