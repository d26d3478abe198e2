import Juxta.Proofs.Decimal.Digits
import Juxta.Proofs.Run.Diagnostics
import Juxta.Proofs.Run.Session
import Juxta.Proofs.Token.Layout
import Juxta.Proofs.Value.Words

/-!
# Chains of operators

There is no precedence: literals with operators between them are computed strictly from left to
right.  This file follows such a chain from its text through its tokens and its tree to the value
that a run of it ends with.

## What is here

* `Parser.reads_integer` — how an integer is read.
* `Chain` — a chain; `Chain.text` — its source; `Chain.fold` — its value, computed with words.
* `Chain.Spells` — tokens that spell operators and operands; `Chain.exists_spells` — those of the
  source.
* `Chain.Extends` — a tree that goes on from another one; `Chain.exists_reads` — that of the source.
* `Chain.Extends.eval` — it is evaluated to the value of the chain.
* `chains_fold_and_wrap_once` — a run of a chain, and the exact value of trees without division.
-/

set_option autoImplicit false
namespace Juxta

/-! ## Integers -/

/-- An integer that a literal can denote. -/
abbrev Literal : Type :=
  Fin (2 ^ 63)

namespace Literal

/-- The word that a literal denotes. -/
def word (n : Literal) : Int64 :=
  Int64.ofNat n

theorem toInt_word (n : Literal) : n.word.toInt = (n : Nat) :=
  Int64.toInt_ofNat_of_lt n.isLt

end Literal

/-- Digits are an integer in front of a blank. -/
theorem Token.firstLexeme_digits {digits rest : List Char} (hne : digits ≠ [])
    (hdigits : ∀ c ∈ digits, c.isDigit = true) (h : ∀ c ∈ rest.head?, c = ' ') :
    firstLexeme (digits ++ rest) = some (.integer, digits) := by
  have htake : (digits ++ rest).takeWhile Char.isDigit = digits :=
    takeWhile_append_eq_left.2 ⟨hdigits, fun c hc => by rw [h c hc]; rfl⟩
  refine firstLexeme_eq_some_iff.2 ⟨hne, htake, [.float], _, rfl, fun k hk => ?_⟩
  rw [List.mem_singleton.1 hk, Kind.lexeme, floatLexeme, htake, List.drop_left]
  cases rest with
  | nil => rfl
  | cons c rest =>
    obtain rfl := h c rfl
    rfl

/-- An integer that is not too large is read as its leaf. -/
theorem Parser.reads_integer {t : Token} {ts : List Token} (hlex : t.Lexical)
    (hkind : t.kind = .integer) (hbound : integerOf t ≤ maxInteger)
    (hpoint : begins (Token.hasText ".") ts = false) :
    Reads standardForms .propertyOrValue (t :: ts) [integerLeaf t] ts := by
  have hleaf : ValueForm.integer.leaf? t = some (integerLeaf t) := by
    rw [ValueForm.leaf?, if_neg (Int.not_lt.2 hbound)]
  exact .propertyOrValue (.leaf (formAt_of_formOfKind hlex hkind rfl) hleaf) (.noProperty hpoint)

/-! ## Chains -/

/-- A literal, and operators with their right operands. -/
structure Chain where
  first : Literal
  steps : List (Operator × Literal)
deriving DecidableEq

namespace Chain

/-- The text of an operator and its right operand. -/
def stepText (step : Operator × Literal) : String :=
  " " ++ step.1.symbol ++ " " ++ toString (step.2 : Nat)

/-- The text of a chain, with single blanks. -/
def text (c : Chain) : String :=
  toString (c.first : Nat) ++ String.join (c.steps.map stepText)

/-- Applies an operator to what has been computed and to its right operand. -/
def foldStep (a : Int64) (step : Operator × Literal) : Except Cause Int64 :=
  step.1.onWords a step.2.word

/-- The value of a chain: its operators are applied from left to right, until one fails. -/
def fold (c : Chain) : Except Cause Int64 :=
  c.steps.foldlM foldStep c.first.word

/-- The step divides by zero. -/
def DividesByZero (step : Operator × Literal) : Prop :=
  (step.1 = .div ∨ step.1 = .mod) ∧ step.2 = 0

theorem foldStep_eq_error_iff {a : Int64} {step : Operator × Literal} {cause : Cause} :
    foldStep a step = .error cause ↔ cause = .zeroDivision ∧ DividesByZero step := by
  obtain ⟨op, n⟩ := step
  have hzero : n.word = 0 ↔ n = 0 := by
    rw [← Int64.toInt_inj, n.toInt_word, Fin.ext_iff]
    exact Int.natCast_eq_zero
  cases op with
  | add | sub | mul => simp [foldStep, Operator.onWords, DividesByZero]
  | div | mod =>
    simp only [foldStep, Operator.onWords, DividesByZero, hzero]
    split <;> simp_all [eq_comm]

/-- A chain has a value unless it divides by zero somewhere. -/
theorem fold_eq_error_iff {c : Chain} {cause : Cause} :
    c.fold = .error cause ↔ cause = .zeroDivision ∧ ∃ step ∈ c.steps, DividesByZero step := by
  obtain ⟨first, steps⟩ := c
  rw [fold]
  generalize first.word = a
  induction steps generalizing a with
  | nil => simp [pure, Except.pure]
  | cons step steps ih =>
    rw [List.foldlM_cons]
    cases hstep : foldStep a step with
    | error cause' =>
      obtain ⟨rfl, hzero⟩ := foldStep_eq_error_iff.1 hstep
      simp [bind, Except.bind, hzero, eq_comm]
    | ok b =>
      have hnot : ¬ DividesByZero step := fun hzero => by
        rw [foldStep_eq_error_iff.2 ⟨rfl, hzero⟩] at hstep
        cases hstep
      simpa [bind, Except.bind, hnot] using ih b

/-! ## Tokens -/

/-- The token is the numeral of a literal. -/
structure Spells.Operand (n : Literal) (t : Token) : Prop where
  kind : t.kind = .integer
  text : t.text = toString (n : Nat)

/-- The tokens spell operators and their right operands. -/
inductive Spells : List (Operator × Literal) → List Token → Prop
  | nil : Spells [] []
  | cons {op : Operator} {n : Literal} {steps : List (Operator × Literal)} {t u : Token}
      {ts : List Token} (hkind : t.kind = .leftOperator) (htext : t.text = op.symbol)
      (hoperand : Spells.Operand n u) (h : Spells steps ts) :
      Spells ((op, n) :: steps) (t :: u :: ts)

/-- The text of a step after its first blank is that of its operator and a blank. -/
theorem toList_symbol (op : Operator) :
    ∃ c, op.symbol.toList = [c] ∧ Token.isSpace c = false ∧
      ∀ rest, Token.firstLexeme (c :: ' ' :: rest) = some (.leftOperator, [c]) := by
  cases op <;> exact ⟨_, rfl, rfl, fun _ => rfl⟩

/-- A numeral ends before a blank. -/
theorem firstLexeme_numeral (n : Nat) {rest : List Char} (h : ∀ c ∈ rest.head?, c = ' ') :
    Token.firstLexeme (n.repr.toList ++ rest) = some (.integer, n.repr.toList) :=
  Token.firstLexeme_digits (Decimal.toList_repr_ne_nil n) (fun _ => Decimal.isDigit_of_mem_repr) h

/-- A blank is a piece of its own in front of anything else. -/
theorem firstLexeme_blank {rest : List Char} (h : ∀ c ∈ rest.head?, Token.isSpace c = false) :
    Token.firstLexeme ([' '] ++ rest) = some (.whitespace, [' ']) :=
  Token.firstLexeme_whitespace (List.cons_ne_nil _ _) (by simp [Token.isSpace]) h

theorem head_numeral (n : Nat) (rest : List Char) :
    ∀ c ∈ (n.repr.toList ++ rest).head?, Token.isSpace c = false := by
  intro c hc
  rw [List.head?_append_of_ne_nil _ (Decimal.toList_repr_ne_nil n)] at hc
  have hdigit := Decimal.isDigit_of_mem_repr (List.mem_of_mem_head? hc)
  by_contra hspace
  have hkind := Token.kind_of_isDigit (k := .whitespace) hdigit
    (Bool.eq_true_of_not_eq_false hspace)
  simp at hkind

/-- The text of an operator and its right operand, and what comes after it. -/
theorem toList_steps (op : Operator) (n : Literal) (steps : List (Operator × Literal)) :
    (String.join (((op, n) :: steps).map stepText)).toList =
      [' '] ++ (op.symbol.toList ++ ([' '] ++ ((n : Nat).repr.toList ++
        (String.join (steps.map stepText)).toList))) := by
  simp [stepText]

/-- After an operand there is a blank or nothing. -/
theorem head_steps (steps : List (Operator × Literal)) :
    ∀ c ∈ (String.join (steps.map stepText)).toList.head?, c = ' ' := by
  cases steps with
  | nil => simp
  | cons step steps =>
    obtain ⟨op, n⟩ := step
    rw [toList_steps]
    simp

theorem cuts_append {pos : Nat} {lexeme rest : List Char} {k : Token.Kind} {pieces : List Token}
    (hfirst : Token.firstLexeme (lexeme ++ rest) = some (k, lexeme))
    (h : Token.Cuts (pos + lexeme.length) rest pieces) :
    Token.Cuts pos (lexeme ++ rest) (⟨k, String.ofList lexeme, pos⟩ :: pieces) :=
  .cons hfirst (by rwa [List.drop_left])

/-- The pieces of the steps of a chain, of which the blanks are not kept. -/
theorem exists_cuts_steps (steps : List (Operator × Literal)) (pos : Nat) :
    ∃ pieces, Token.Cuts pos (String.join (steps.map stepText)).toList pieces ∧
      Spells steps (pieces.filter (·.kind.isKept false)) := by
  induction steps generalizing pos with
  | nil => exact ⟨[], .nil, .nil⟩
  | cons step steps ih =>
    obtain ⟨op, n⟩ := step
    obtain ⟨c, hsymbol, hspace, hop⟩ := toList_symbol op
    obtain ⟨pieces, hcuts, hspells⟩ := ih (pos + 1 + 1 + 1 + (n : Nat).repr.toList.length)
    rw [toList_steps, hsymbol]
    refine ⟨_, cuts_append (firstLexeme_blank ?_) <| cuts_append (hop _) <|
      cuts_append (firstLexeme_blank (head_numeral n _)) <|
      cuts_append (firstLexeme_numeral n (head_steps steps)) hcuts, ?_⟩
    · simpa using hspace
    · exact .cons rfl (by rw [← hsymbol, String.ofList_toList]) ⟨rfl, String.ofList_toList⟩ hspells

/-- The tokens of a chain: a numeral, and operators with numerals. -/
theorem exists_spells (c : Chain) :
    ∃ t ts, Token.tokenize c.text = .ok (t :: ts) ∧ t.pos = 0 ∧ Spells.Operand c.first t ∧
      Spells c.steps ts := by
  obtain ⟨pieces, hcuts, hspells⟩ :=
    exists_cuts_steps c.steps (0 + (c.first : Nat).repr.toList.length)
  have hall := cuts_append (firstLexeme_numeral c.first (head_steps c.steps)) hcuts
  rw [← String.toList_append] at hall
  exact ⟨_, _, hall.tokenize_eq, rfl, ⟨rfl, String.ofList_toList⟩, hspells⟩

/-! ## Trees -/

/-- The tree goes on from `lhs` with operators and their right operands, always to the left. -/
inductive Extends : Node → List (Operator × Literal) → Node → Prop
  | nil {lhs : Node} : Extends lhs [] lhs
  | cons {lhs node : Node} {op : Operator} {n : Literal} {steps : List (Operator × Literal)}
      {place start : Option Int}
      (h : Extends (.branch .binary [lhs, .leaf .operator (.str op.symbol) place,
        .leaf .integer (.int (n : Nat)) start] lhs.start) steps node) :
      Extends lhs ((op, n) :: steps) node

open Juxta.Parser

theorem Spells.begins_point {steps : List (Operator × Literal)} {ts : List Token}
    (h : Spells steps ts) : begins (Token.hasText ".") ts = false := by
  cases h with
  | nil => rfl
  | @cons op n steps t u ts _ htext _ _ =>
    rw [begins_cons, Token.hasText_eq_false, htext]
    cases op <;> decide

/-- A numeral is read as the literal that it denotes. -/
theorem Spells.Operand.reads {n : Literal} {t : Token} {ts : List Token}
    (h : Spells.Operand n t) (hlex : t.Lexical)
    (hpoint : begins (Token.hasText ".") ts = false) :
    Reads standardForms .propertyOrValue (t :: ts)
      [.leaf .integer (.int (n : Nat)) (some t.pos)] ts := by
  have hvalue : integerOf t = (n : Nat) := by
    rw [integerOf, h.text, Nat.toString_eq_repr, Decimal.readInteger?_repr]
    rfl
  have hbound : integerOf t ≤ maxInteger := by
    have hlt := n.isLt
    rw [hvalue, maxInteger]
    omega
  rw [← hvalue]
  exact reads_integer hlex h.kind hbound hpoint

theorem Spells.exists_reads {steps : List (Operator × Literal)} {ts : List Token}
    (h : Spells steps ts) (hlex : ∀ t ∈ ts, t.Lexical) (lhs : Node) :
    ∃ node, Reads standardForms (.operands lhs) ts [node] [] ∧ Extends lhs steps node := by
  induction h generalizing lhs with
  | nil => exact ⟨lhs, .noOperand rfl, .nil⟩
  | @cons op n steps t u ts hkind htext hoperand hspells ih =>
    have hread := hoperand.reads (hlex u (by simp)) hspells.begins_point
    obtain ⟨node, hnode, hextends⟩ := ih (fun t' ht' => hlex t' (by simp [ht']))
      (binaryNode lhs t (.leaf .integer (.int (n : Nat)) (some u.pos)))
    refine ⟨node, .operand hkind hread hnode, ?_⟩
    rw [binaryNode, textLeaf, htext] at hextends
    exact .cons hextends

/-- **The source of a chain is one expression**, in which the operators chain to the left. -/
theorem exists_reads (c : Chain) :
    ∃ ts node, Token.tokenize c.text = .ok ts ∧ Reads standardForms .expression ts [node] [] ∧
      Extends (.leaf .integer (.int (c.first : Nat)) (some 0)) c.steps node := by
  obtain ⟨t, ts, htokens, hpos, hfirst, hspells⟩ := c.exists_spells
  have hlex := Token.lexical_of_tokenize htokens
  have hread := hfirst.reads (hlex t (by simp)) hspells.begins_point
  rw [hpos] at hread
  obtain ⟨node, hnode, hextends⟩ := hspells.exists_reads (fun u hu => hlex u (by simp [hu]))
    (.leaf .integer (.int (c.first : Nat)) (some 0))
  have hintermediate : Reads standardForms .intermediate (t :: ts) [node] [] := by
    obtain ⟨first, steps⟩ := c
    cases hspells with
    | nil =>
      obtain ⟨hnode, -⟩ := hnode.unique (.noOperand rfl)
      rw [hnode]
      exact .call hread rfl (.noArgument rfl)
    | cons hkind => exact .operation hread (by simpa using hkind) hnode
  exact ⟨t :: ts, node, htokens, .plain hintermediate rfl, hextends⟩

/-- It is also one statement. -/
theorem exists_isProgram (c : Chain) :
    ∃ node, IsProgram c.text [node] ∧
      Extends (.leaf .integer (.int (c.first : Nat)) (some 0)) c.steps node := by
  obtain ⟨ts, node, htokens, hread, hextends⟩ := c.exists_reads
  exact ⟨node, ⟨ts, htokens, hread.statements_of_expression (Token.lexical_of_tokenize htokens)⟩,
    hextends⟩

/-! ## Evaluation -/

/-- The result of an evaluation that comes to a word, or fails at the start of its source. -/
def result (m : Machine) : Except Cause Int64 → EStateM.Result Interrupt Machine Value
  | .ok a => .ok (.int a.toInt) m
  | .error cause => .error (.failure ⟨cause, .ofPosition .start⟩) m

theorem eval_literal (n : Literal) (start : Option Int) (m : Machine) :
    (Node.leaf .integer (.int (n : Nat)) start).eval 0 m = result m (.ok n.word) := by
  rw [result, n.toInt_word]
  rfl

/-- One more operator. -/
theorem eval_step {lhs : Node} {r : Except Cause Int64} {m : Machine} {source : String}
    (hsource : m.env.source? 0 = some source) (hstart : lhs.start = some 0)
    (h : lhs.eval 0 m = result m r) (op : Operator) (n : Literal) (place start : Option Int) :
    (Node.branch .binary [lhs, .leaf .operator (.str op.symbol) place,
        .leaf .integer (.int (n : Nat)) start] lhs.start).eval 0 m =
      result m (r >>= (foldStep · (op, n))) := by
  rw [Node.eval_binary_symbol, Eval.locating]
  cases r with
  | error cause =>
    rw [Eval.bind_of_error h]
    rfl
  | ok a =>
    have hright := eval_literal n start m
    have happly : op.apply (.int a.toInt) (.int n.word.toInt) =
        (foldStep a (op, n)).map (.int ·.toInt) := by
      rw [Operator.apply, Operator.onInts_toInt, foldStep]
      cases op.onWords a n.word <;> rfl
    rw [Eval.bind_of_ok h, Eval.bind_of_ok hright, happly]
    show _ = result m (foldStep a (op, n))
    cases foldStep a (op, n) with
    | ok b => rfl
    | error cause =>
      have hposition : Position.ofOffset? source 0 = some .start :=
        Position.ofOffset?_of_le (Nat.zero_le _)
      show EStateM.Result.error (Interrupt.failure ((Failure.ofCause cause).locate (m.env.source? 0)
        lhs.start)) m = _
      rw [hsource, hstart, Failure.locate_ofCause hposition, result]

/-- **A chain is evaluated from left to right.** -/
theorem Extends.eval {lhs node : Node} {steps : List (Operator × Literal)} {r : Except Cause Int64}
    {m : Machine} {source : String} (h : Extends lhs steps node)
    (hsource : m.env.source? 0 = some source) (hstart : lhs.start = some 0)
    (hlhs : lhs.eval 0 m = result m r) :
    node.eval 0 m = result m (r >>= steps.foldlM foldStep) := by
  induction h generalizing r with
  | nil =>
    rw [hlhs]
    cases r <;> rfl
  | cons h ih =>
    rw [ih hstart (eval_step hsource hstart hlhs _ _ _ _), bind_assoc]
    rfl

end Chain

/-- A source that is one statement ends as the evaluation of the statement does. -/
theorem runSource_ending {source : String} {node : Node} (h : Parser.IsProgram source [node])
    (showTree tracing : Bool) (env : Environment) (frame : Nat) :
    (runSource ⟨.expressions, showTree, tracing⟩ env frame source).ending =
      (endingOf (node.eval frame (.ofEnvironment (env.setSource frame source)))).1 := by
  have heval : (Node.branch .expressions [node] none).eval frame = node.eval frame := by
    rw [Node.eval, Eval.locating_none]
    simp [Node.evalAll]
  rw [runSource]
  simp only [h.parseSource_expressions tracing, evaluateAt, Option.map_some, Option.getD_some,
    heval]

/-- **Chains have no precedence, and computations wrap once in effect.**  A run of a chain from a
fresh root frame ends with the value to which its operators come when they are applied to words of
64 bits from left to right.  It fails if and only if it divides by zero somewhere.  And a tree of
any shape with literals, parentheses, sums, differences and products only is evaluated to its exact
value, wrapped. -/
theorem chains_fold_and_wrap_once :
    (∀ (c : Chain) (b : Builtins) (source : Option String) (showTree tracing : Bool),
      (runSource ⟨.expressions, showTree, tracing⟩ (b.environment source) 0 c.text).ending =
        match c.fold with
        | .ok a => .value (.int a.toInt)
        | .error cause => .failure ⟨cause, .ofPosition .start⟩) ∧
    (∀ (c : Chain) (cause : Cause), c.fold = .error cause ↔
      cause = .zeroDivision ∧ ∃ step ∈ c.steps, Chain.DividesByZero step) ∧
    ∀ (node : Node) (n : Int), node.Denotes n →
      ∀ (frame : Nat) (m : Machine), node.eval frame m = .ok (.int (wrap n)) m := by
  refine ⟨fun c b source showTree tracing => ?_, fun c cause => Chain.fold_eq_error_iff,
    fun node n h => h.eval⟩
  obtain ⟨node, hprogram, hextends⟩ := c.exists_isProgram
  have hsource : ((b.environment source).setSource 0 c.text).source? 0 = some c.text :=
    Environment.source?_setSource _ 0 _ Nat.zero_lt_one
  rw [runSource_ending hprogram, hextends.eval hsource rfl (Chain.eval_literal _ _ _)]
  show (endingOf (Chain.result _ c.fold)).1 = _
  cases c.fold <;> rfl

/-- A sum that overflows before it is divided, a division by zero that stops a chain, and a product
that is far out of range before the difference brings it back. -/
theorem chains_fold_and_wrap_once_overflow :
    let c : Chain := ⟨9223372036854775807, [(.add, 1), (.div, 2), (.mul, 3)]⟩
    let d : Chain := ⟨7, [(.sub, 9), (.mod, 0), (.div, 0)]⟩
    let env := Builtins.standard.environment none
    let literal := fun n : Int => Node.leaf .integer (.int n) none
    let binary := fun (op : Operator) (l r : Node) =>
      Node.branch .binary [l, .leaf .operator (.str op.symbol) none, r] none
    let square := binary .mul (literal 9223372036854775807) (literal 9223372036854775807)
    let tree := binary .sub (.branch .parenthesis [square] none) (literal 2)
    c.text = "9223372036854775807 + 1 / 2 * 3" ∧
      (runSource ⟨.expressions, false, false⟩ env 0 c.text).ending =
        .value (.int 4611686018427387904) ∧
      d.text = "7 - 9 % 0 / 0" ∧
      (runSource ⟨.expressions, true, true⟩ env 0 d.text).ending =
        .failure ⟨.zeroDivision, .ofPosition ⟨1, 1⟩⟩ ∧
      tree.Denotes 85070591730234615847396907784232501247 ∧
      ∀ m, tree.eval 0 m = .ok (.int (-1)) m := by
  intro c d env literal binary square tree
  have hliteral {n : Int} (hlow : 0 ≤ n) (hhigh : n ≤ Parser.maxInteger) :
      (literal n).Denotes n := .literal hlow hhigh
  have htree : tree.Denotes (9223372036854775807 * 9223372036854775807 - 2) :=
    .operation rfl (.parentheses (.operation rfl (hliteral (by decide) (by decide))
      (hliteral (by decide) (by decide)))) (hliteral (by decide) (by decide))
  have hfold : c.fold = .ok ((9223372036854775807 + 1) / 2 * 3) := rfl
  have hword : ((9223372036854775807 + 1) / 2 * 3 : Int64).toInt = 4611686018427387904 := by decide
  refine ⟨by decide +kernel, ?_, by decide +kernel, ?_, htree, ?_⟩
  · rw [chains_fold_and_wrap_once.1 c _ none false false, hfold, ← hword]
  · exact chains_fold_and_wrap_once.1 d _ none true true
  · exact chains_fold_and_wrap_once.2.2 tree _ htree 0

end Juxta
