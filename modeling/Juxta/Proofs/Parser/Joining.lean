import Juxta.Proofs.Parser.Linearization
import Juxta.Proofs.Parser.Relabeling
import Juxta.Proofs.Parser.Yield
import Juxta.Proofs.Token.Joining

/-!
# Parsing joined sources

A program that is followed by a line feed and another program is a program again.  Its statements
are those of the first one and then those of the second one, which only start later.

That the two do not run into each other has two reasons.  A line end continues no expression, so
that the last statement of the first program ends where it did.  And no expression ends in a line
end, so that the line ends at the end of the first program belong to none of its statements and may
become one with the line feed.

## What is here

* `Node.shift` — a tree that starts somewhat later.
* `Reads.shift` — tokens that stand later are read as trees that start later.
* `Reads.inLine` — no expression ends in a line end.
* `Reads.join` — the statements of two token lists with a line end between them.
* `Program` — the statements that a source consists of; `Program.join` — those of joined sources;
  `Program.startsIn` — where its nodes start.
-/

set_option autoImplicit false
namespace Juxta

/-! ## Trees that start later -/

namespace Node

mutual

/-- The same tree, with everything in it starting `d` characters later. -/
def shift (d : Nat) : Node → Node
  | leaf k p s => leaf k p (s.map (· + d))
  | branch k cs s => branch k (shiftAll d cs) (s.map (· + d))

/-- The same trees, starting later. -/
def shiftAll (d : Nat) : List Node → List Node
  | [] => []
  | n :: ns => shift d n :: shiftAll d ns

end

theorem shiftAll_eq_map (d : Nat) (ns : List Node) : shiftAll d ns = ns.map (shift d) := by
  induction ns with
  | nil => rfl
  | cons n ns ih => rw [shiftAll, ih, List.map_cons]

theorem shift_branch (d : Nat) (k : Kind) (cs : List Node) (s : Option Int) :
    (branch k cs s).shift d = branch k (cs.map (shift d)) (s.map (· + (d : Int))) := by
  rw [shift, shiftAll_eq_map]

mutual

theorem shift_shift (d e : Nat) : ∀ n : Node, (n.shift d).shift e = n.shift (d + e)
  | leaf k p s => by
    simp only [shift, Option.map_map, Function.comp_def, Int.natCast_add, Int.add_assoc]
  | branch k cs s => by
    simp only [shift, shiftAll_shiftAll d e cs, Option.map_map, Function.comp_def, Int.natCast_add,
      Int.add_assoc]

theorem shiftAll_shiftAll (d e : Nat) :
    ∀ ns : List Node, shiftAll e (shiftAll d ns) = shiftAll (d + e) ns
  | [] => rfl
  | n :: ns => by
    simp only [shiftAll, shift_shift d e n, shiftAll_shiftAll d e ns]

end

mutual

@[simp] theorem shift_zero : ∀ n : Node, n.shift 0 = n
  | leaf k p s => by cases s <;> simp [shift]
  | branch k cs s => by cases s <;> simp [shift, shiftAll_zero cs]

theorem shiftAll_zero : ∀ ns : List Node, shiftAll 0 ns = ns
  | [] => rfl
  | n :: ns => by rw [shiftAll, shift_zero n, shiftAll_zero ns]

end

mutual

theorem relocate_eq_shift (d : Nat) : ∀ n : Node, n.relocate (· + (d : Int)) = n.shift d
  | leaf _ _ _ => rfl
  | branch k cs s => by rw [relocate, shift, relocateAll_eq_shiftAll d cs]

theorem relocateAll_eq_shiftAll (d : Nat) :
    ∀ ns : List Node, relocateAll (· + (d : Int)) ns = shiftAll d ns
  | [] => rfl
  | n :: ns => by
    rw [relocateAll, shiftAll, relocate_eq_shift d n, relocateAll_eq_shiftAll d ns]

end

theorem map_shift_shift (d e : Nat) (ns : List Node) :
    (ns.map (shift d)).map (shift e) = ns.map (shift (d + e)) := by
  rw [List.map_map]
  exact List.map_congr_left fun n _ => shift_shift d e n

/-- Every node of the tree starts at one of the first offsets, up to `length`. -/
def StartsIn (length : Nat) (n : Node) : Prop :=
  ∀ m ∈ n.subtrees, ∃ offset : Nat, m.start = some ↑offset ∧ offset ≤ length

theorem mem_subtrees_self (n : Node) : n ∈ n.subtrees := by
  cases n with
  | leaf => exact List.mem_cons_self
  | branch => exact List.mem_cons_self

theorem StartsIn.start {length : Nat} {n : Node} (h : n.StartsIn length) :
    ∃ offset : Nat, n.start = some ↑offset ∧ offset ≤ length :=
  h n n.mem_subtrees_self

theorem StartsIn.children {length : Nat} {k : Kind} {cs : List Node} {s : Option Int}
    (h : (branch k cs s).StartsIn length) : ∀ c ∈ cs, c.StartsIn length := by
  intro c hc m hm
  refine h m ?_
  rw [subtrees]
  exact List.mem_cons_of_mem _ (Parser.mem_subtreesOfAll.2 ⟨c, hc, hm⟩)

mutual

theorem map_snd_placed (i : Nat) : ∀ n : Node, (n.placed i).map Prod.snd = n.subtrees
  | leaf _ _ _ => rfl
  | branch k cs s => by rw [placed, subtrees, List.map_cons, map_snd_placedAll]

/-- All nodes are placed. -/
theorem map_snd_placedAll (gap i : Nat) :
    ∀ ns : List Node, (placedAll gap i ns).map Prod.snd = subtreesOfAll ns
  | [] => rfl
  | n :: ns => by
    rw [placedAll, subtreesOfAll, List.map_append, map_snd_placed, map_snd_placedAll]

end

end Node

namespace Parser

variable {forms : List ValueForm} {phrase : Phrase} {input rest : List Token} {ns ms : List Node}
  {t : Token} {d : Nat}

/-- The phrase that goes on from the tree that starts later. -/
def Phrase.shift (d : Nat) : Phrase → Phrase
  | properties base => properties (base.shift d)
  | operands lhs => operands (lhs.shift d)
  | phrase => phrase

theorem Phrase.relocate_eq_shift (phrase : Phrase) (d : Nat) :
    phrase.relocate (· + (d : Int)) = phrase.shift d := by
  cases phrase with
  | properties base => exact congrArg properties (base.relocate_eq_shift d)
  | operands lhs => exact congrArg operands (lhs.relocate_eq_shift d)
  | _ => rfl

/-- **Tokens that stand later are read as trees that start later.** -/
theorem Reads.shift (h : Reads forms phrase input ns rest) (d : Nat) :
    Reads forms (phrase.shift d) (input.map (·.shift d)) (ns.map (Node.shift d))
      (rest.map (·.shift d)) := by
  have hg : RelabelsAll (· + (d : Int)) (·.shift d) input :=
    fun _ _ => ⟨rfl, rfl, fun _ => rfl, fun _ _ => Iff.rfl⟩
  have hns : ns.map (Node.relocate (· + (d : Int))) = ns.map (Node.shift d) :=
    List.map_congr_left fun n _ => n.relocate_eq_shift d
  have hread := h.relabel hg
  rwa [phrase.relocate_eq_shift, hns] at hread

/-! ## Expressions do not end in a line end -/

/-- The last token, if there is one, is no line end. -/
def InLine (ts : List Token) : Prop :=
  ∀ t ∈ ts.getLast?, t.kind ≠ .newline

namespace InLine

variable {ts us : List Token}

theorem nil : InLine [] :=
  fun _ h => absurd h (by simp)

theorem concat (ts : List Token) (ht : t.kind ≠ .newline) : InLine (ts ++ [t]) := by
  intro u hu
  rw [List.getLast?_concat, Option.mem_some] at hu
  exact hu ▸ ht

theorem append (h : InLine ts) (h' : InLine us) : InLine (ts ++ us) := by
  intro t ht
  rw [List.getLast?_append] at ht
  cases hlast : us.getLast? with
  | none =>
    rw [hlast] at ht
    exact h t ht
  | some u =>
    rw [hlast, Option.some_or, Option.mem_some] at ht
    exact ht ▸ h' u hlast

theorem cons (ht : t.kind ≠ .newline) (h : InLine ts) : InLine (t :: ts) :=
  (concat [] ht).append h

/-- What ends in its line is not reached by the line ends behind it. -/
theorem exists_append {pre mid front lines : List Token} (h : InLine pre)
    (heq : pre ++ mid = front ++ lines) (hlines : ∀ t ∈ lines, t.kind = .newline) :
    ∃ between, front = pre ++ between ∧ mid = between ++ lines := by
  rcases List.append_eq_append_iff.1 heq with h' | ⟨reached, hpre, hmid⟩
  · exact h'
  · cases hlast : reached.getLast? with
    | none =>
      obtain rfl := List.getLast?_eq_none_iff.1 hlast
      exact ⟨[], by rw [hpre, List.append_nil, List.append_nil], hmid.symm⟩
    | some t =>
      have ht : t ∈ lines := hmid ▸ List.mem_append_left _ (List.mem_of_getLast? hlast)
      refine absurd (hlines t ht) (h t ?_)
      rw [hpre, List.getLast?_append, hlast]
      rfl

end InLine

/-- Whether a phrase cannot go over several lines by itself. -/
def Phrase.inLine : Phrase → Bool
  | statements | afterStatement => false
  | _ => true

theorem kind_ne_newline {c : Char} (h : t.Lexical) (hc : Token.isPunctuation c = true)
    (htext : t.text = String.ofList [c]) : t.kind ≠ .newline := by
  rw [h.kind_of_text hc htext]
  decide

theorem kind_ne_newline_of_leaf? {form : ValueForm} {n : Node} (hform : form.leads t = true)
    (hleaf : form.leaf? t = some n) : t.kind ≠ .newline := by
  cases form with
  | parens | block | quoted | unquote => cases hleaf
  | identifier | integer | float | string =>
    rw [Token.hasKind_eq_true.1 hform]
    decide

/-- **No expression ends in a line end.** -/
theorem Reads.inLine (h : Reads forms phrase input ns rest) (hlex : ∀ t ∈ input, t.Lexical)
    (hphrase : phrase.inLine = true) : ∃ pre, input = pre ++ rest ∧ InLine pre := by
  induction h with
  | @leaf t ts form n hform hleaf =>
    exact ⟨[t], rfl, .cons (kind_ne_newline_of_leaf? (leads_of_formAt hform) hleaf) .nil⟩
  | group _ _ ih => exact ih hlex rfl
  | @block t u ts rest ns _ h hu _ =>
    obtain ⟨pre, rfl⟩ := h.suffix
    have hulex : u.Lexical := hlex u (by simp)
    refine ⟨t :: pre ++ [u], by simp, .concat _ ?_⟩
    exact kind_ne_newline (c := '\x7d') hulex rfl hu
  | @quoted t ts rest n hform _ ih =>
    obtain ⟨pre, rfl, hpre⟩ := ih (List.forall_mem_cons.1 hlex).2 rfl
    have ht := Token.hasKind_eq_true.1 (leads_of_formAt hform)
    exact ⟨t :: pre, rfl, .cons (by rw [ht]; decide) hpre⟩
  | @unquote t ts rest n hform _ ih =>
    obtain ⟨pre, rfl, hpre⟩ := ih (List.forall_mem_cons.1 hlex).2 rfl
    have ht := Token.hasKind_eq_true.1 (leads_of_formAt hform)
    exact ⟨t :: pre, rfl, .cons (by rw [ht]; decide) hpre⟩
  | @parens t u ts rest n _ _ hu ih =>
    obtain ⟨pre, rfl, -⟩ := ih (List.forall_mem_cons.1 hlex).2 rfl
    have hulex : u.Lexical := hlex u (by simp)
    refine ⟨t :: pre ++ [u], by simp, .concat _ ?_⟩
    exact kind_ne_newline (c := ')') hulex rfl hu
  | noProperty | noOperand | noArgument => exact ⟨[], rfl, .nil⟩
  | @property base t u ts rest ns ht hu _ ih =>
    obtain ⟨htlex, hlex⟩ := List.forall_mem_cons.1 hlex
    obtain ⟨pre, rfl, hpre⟩ := ih (List.forall_mem_cons.1 hlex).2 rfl
    exact ⟨t :: u :: pre, rfl, .cons (kind_ne_newline (c := '.') htlex rfl ht)
      (.cons (by rw [hu]; decide) hpre)⟩
  | @operand lhs rhs op ts mid rest ns hop hrhs _ ihr ih =>
    obtain ⟨-, hlex⟩ := List.forall_mem_cons.1 hlex
    obtain ⟨pre₁, rfl, hpre₁⟩ := ihr hlex rfl
    obtain ⟨pre₂, rfl, hpre₂⟩ := ih (List.forall_mem_append.1 hlex).2 rfl
    refine ⟨op :: (pre₁ ++ pre₂), by simp, .cons (by rw [hop]; decide) ?_⟩
    exact hpre₁.append hpre₂
  | propertyOrValue _ _ ihf ih | chain _ _ ihf ih | argument _ _ _ ihf ih | operation _ _ _ ihf ih
  | call _ _ _ ihf ih =>
    obtain ⟨pre₁, rfl, hpre₁⟩ := ihf hlex rfl
    obtain ⟨pre₂, rfl, hpre₂⟩ := ih (List.forall_mem_append.1 hlex).2 rfl
    exact ⟨pre₁ ++ pre₂, by simp, hpre₁.append hpre₂⟩
  | @comma t ts rest args ht _ ih =>
    obtain ⟨htlex, hlex⟩ := List.forall_mem_cons.1 hlex
    obtain ⟨pre, rfl, hpre⟩ := ih hlex rfl
    exact ⟨t :: pre, rfl, .cons (kind_ne_newline (c := ',') htlex rfl ht) hpre⟩
  | noComma _ _ ih => exact ih hlex rfl
  | plain _ _ ih => exact ih hlex rfl
  | @nested input mid rest lhs rhs op _ hop _ ihl ih =>
    obtain ⟨pre₁, rfl, hpre₁⟩ := ihl hlex rfl
    obtain ⟨-, hlex⟩ := List.forall_mem_cons.1 (List.forall_mem_append.1 hlex).2
    obtain ⟨pre₂, rfl, hpre₂⟩ := ih hlex rfl
    refine ⟨pre₁ ++ op :: pre₂, by simp, hpre₁.append (.cons ?_ hpre₂)⟩
    rw [hop]
    decide
  | newline | noStatement | statement | semicolon | noSemicolon => cases hphrase

/-! ## Statements behind a line end -/

/-- A line end continues no expression. -/
theorem quieter_newline {ts : List Token} (ht : t.Lexical) (hk : t.kind = .newline)
    (input : List Token) : Quieter .expression input (t :: ts) := by
  have hends : EndsExpression (t :: ts) := endsExpression_newline ht hk
  intro p hp _
  simp only [Phrase.tests, expressionTests, List.mem_cons, List.not_mem_nil, or_false] at hp
  rcases hp with rfl | rfl | rfl | rfl | rfl
  · exact hends.point
  · exact hends.operator
  · exact hends.comma
  · exact hends.call
  · exact hends.rightOperator

/-- Line ends by themselves are no statements. -/
theorem Reads.eq_nil_of_newlines {lines : List Token} (h : Reads forms .statements lines ns [])
    (hlines : ∀ t ∈ lines, t.kind = .newline) : ns = [] := by
  have hnil : Reads forms .statements (lines ++ []) [] [] :=
    reads_newlines hlines (.noStatement rfl rfl)
  rw [List.append_nil] at hnil
  exact (h.unique hnil).1

/-- Line ends in front of statements do not matter. -/
theorem Reads.of_newlines {lines ts : List Token} (hlines : ∀ t ∈ lines, t.kind = .newline)
    (h : Reads forms .statements (lines ++ ts) ns rest) : Reads forms .statements ts ns rest := by
  induction lines with
  | nil => exact h
  | cons t lines ih =>
    obtain ⟨ht, hlines⟩ := List.forall_mem_cons.1 hlines
    cases h with
    | newline _ h => exact ih hlines h
    | noStatement hline _ | statement hline _ _ _ =>
      rw [List.cons_append, begins_cons, Token.hasKind_eq_false] at hline
      exact absurd ht hline

/-- **Statements, a line end and further statements** are all these statements, whatever line ends
the first ones had behind them. -/
theorem Reads.join {n : Token} {more front lines : List Token}
    (h : Reads forms phrase input ns rest) (hphrase : phrase.inLine = false) (hrest : rest = [])
    (hinput : input = front ++ lines) (hlines : ∀ t ∈ lines, t.kind = .newline)
    (hlex : ∀ t ∈ input, t.Lexical) (hn : n.Lexical) (hkind : n.kind = .newline)
    (hmore : Reads forms .statements more ms []) :
    Reads forms phrase (front ++ n :: more) (ns ++ ms) [] := by
  -- the induction follows the statements one by one; the split of `input` moves along
  induction h generalizing front with
  | @newline t ts rest ns ht h ih =>
    subst hrest
    cases front with
    | nil =>
      rw [List.nil_append] at hinput
      subst hinput
      rw [(Reads.newline ht h).eq_nil_of_newlines hlines]
      exact .newline hkind hmore
    | cons u front =>
      obtain ⟨rfl, hts⟩ := List.cons.inj hinput
      exact .newline ht (ih rfl rfl hts (List.forall_mem_cons.1 hlex).2)
  | noStatement =>
    subst hrest
    obtain ⟨rfl, -⟩ := List.append_eq_nil_iff.1 hinput.symm
    exact .newline hkind hmore
  | @statement input mid rest m ns hline hopens hm h ihm ih =>
    obtain ⟨pre, rfl, hpre⟩ := hm.inLine hlex rfl
    have hne := ne_nil_of_length_lt (hm.length_lt rfl)
    obtain ⟨between, rfl, rfl⟩ := hpre.exists_append hinput hlines
    have hquiet : Quieter .expression (between ++ lines) (between ++ n :: more) := by
      cases between with
      | nil => exact quieter_newline hn hkind lines
      | cons u between => exact .cons u _ _
    rw [List.append_assoc]
    refine .statement (begins_append hne _ _ ▸ hline) (begins_append hne _ _ ▸ hopens)
      (hm.exchange_append hquiet) ?_
    exact ih rfl hrest rfl (List.forall_mem_append.1 hlex).2
  | @semicolon t ts rest ns ht _ ih =>
    obtain ⟨htlex, hlex⟩ := List.forall_mem_cons.1 hlex
    cases front with
    | nil =>
      have hmem : t ∈ [] ++ lines := hinput ▸ List.mem_cons_self
      exact absurd (hlines t hmem) (kind_ne_newline (c := ';') htlex rfl ht)
    | cons u front =>
      obtain ⟨rfl, hts⟩ := List.cons.inj hinput
      exact .semicolon ht (ih rfl hrest hts hlex)
  | noSemicolon hsemi _ ih =>
    refine .noSemicolon ?_ (ih rfl hrest hinput hlex)
    cases front with
    | nil =>
      rw [List.nil_append, begins_cons, Token.hasText_eq_false]
      exact fun htext => kind_ne_newline (c := ';') hn rfl htext hkind
    | cons u front =>
      subst hinput
      exact hsemi
  | _ => cases hphrase

/-! ## Programs -/

/-- All nodes that are read from the tokens of a source start in it. -/
theorem Reads.startsIn {source : String} (h : Reads forms phrase input ns rest)
    (hbase : phrase.base = []) (htokens : Token.tokenize source = .ok input) :
    ∀ n ∈ ns, n.StartsIn source.length := by
  intro n hn m hm
  obtain ⟨pre, rfl, hcovers⟩ := h.covers (Token.lexical_of_tokenize htokens)
  have hmem : m ∈ Node.subtreesOfAll ns := mem_subtreesOfAll.2 ⟨n, hn, hm⟩
  rw [← Node.map_snd_placedAll 0 0 ns] at hmem
  obtain ⟨⟨i, m'⟩, hplaced, rfl⟩ := List.mem_map.1 hmem
  obtain ⟨t, ht, hstart⟩ := (hcovers [] (hbase ▸ .nil)).startsAt [] [] i m' hplaced
  have htmem : t ∈ Token.significant pre := by simpa using List.mem_of_getElem? ht
  obtain ⟨offset, hpos, hle⟩ := Token.pos_le_of_tokenize htokens t
    (List.mem_append_left _ (List.mem_filter.1 htmem).1)
  exact ⟨offset, hpos ▸ hstart, hle⟩

/-- The source is a program of these statements. -/
def IsProgram (source : String) (ns : List Node) : Prop :=
  ∃ ts, Token.tokenize source = .ok ts ∧ Reads standardForms .statements ts ns []

namespace IsProgram

variable {source first second : String}

theorem of_parse {node : Node} (h : parse .program source = .ok node) :
    ∃ ns, IsProgram source ns := by
  obtain ⟨ts, s, htokens, hparse⟩ := tokenize_of_parse h
  obtain ⟨-, -, ns, -, hread⟩ := reads_of_parseTokens hparse
  exact ⟨ns, ts, htokens, hread⟩

/-- A program is parsed as one. -/
theorem parseSource_program (h : IsProgram source ns) (tracing : Bool) :
    (parseSource { Settings.standard with tracing } .program source).tree =
      .ok (.branch .program ns none) := by
  obtain ⟨ts, htokens, hread⟩ := h
  obtain ⟨s, hparse, -⟩ : ∃ s, parseTokens { Settings.standard with tracing } .program ts =
      .ok (.branch .program ns none) s ∧ s.ahead = [] := parseTokens_of_reads hread
  rw [parseSource, htokens]
  simp only [hparse]

/-- As a sequence of statements a program is parsed with the same statements. -/
theorem parseSource_expressions (h : IsProgram source ns) (tracing : Bool) :
    (parseSource { Settings.standard with tracing } .expressions source).tree =
      .ok (.branch .expressions ns none) := by
  obtain ⟨ts, htokens, hread⟩ := h
  obtain ⟨s, hparse⟩ : ∃ s, parseTokens { Settings.standard with tracing } .expressions ts =
      .ok (.branch .expressions ns none) s := parseTokens_expressions_of_reads hread
  rw [parseSource, htokens]
  simp only [hparse]

/-- The statements of a program are expressions of the grammar. -/
theorem hasShape (h : IsProgram source ns) : ∀ n ∈ ns, HasShape .expression n := by
  obtain ⟨ts, htokens, hread⟩ := h
  exact hread.hasShape (Token.lexical_of_tokenize htokens) trivial

/-- All nodes of a program start in its source. -/
theorem startsIn (h : IsProgram source ns) : ∀ n ∈ ns, n.StartsIn source.length := by
  obtain ⟨ts, htokens, hread⟩ := h
  exact hread.startsIn rfl htokens

/-- **Two programs with a line feed between them are one**, whose statements are those of both. -/
theorem join (h : IsProgram first ns) (hfree : Token.StringsEndFreely first)
    (h' : IsProgram second ms) :
    IsProgram (first ++ "\n" ++ second) (ns ++ ms.map (Node.shift (first.length + 1))) := by
  obtain ⟨ts, htokens, hread⟩ := h
  obtain ⟨us, htokens', hread'⟩ := h'
  obtain ⟨front, lines, n, lines', back, rfl, rfl, hlines, hlines', hn, hjoined⟩ :=
    Token.tokenize_join htokens (hfree _ htokens) htokens'
  have hlex := Token.lexical_of_tokenize htokens
  have hnlex : n.Lexical := Token.lexical_of_tokenize hjoined n (by simp)
  have hback := (Reads.of_newlines hlines' hread').shift (first.length + 1)
  exact ⟨_, hjoined, hread.join rfl rfl rfl hlines hlex hnlex hn hback⟩

end IsProgram

end Parser
end Juxta
