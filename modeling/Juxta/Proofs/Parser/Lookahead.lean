import Juxta.Proofs.Parser.Reading

/-!
# One token of look-ahead

What a phrase is read as depends on the tokens of the phrase and on the one token behind it, and on
that one only as far as it might continue the phrase.  Whatever comes behind a phrase may therefore
be exchanged for something that does not continue it either.

## What is here

* `Quieter phrase rest rest'` — `rest'` continues the phrase no more than `rest` does.
* `Reads.exchange` — behind a phrase, what comes may be exchanged for something quieter.
* `Stuck.exchange` — behind the token at which reading is stuck, everything may be exchanged.
-/

set_option autoImplicit false
namespace Juxta.Parser

/-! ## Continuing a phrase -/

/-- The questions that are asked about the token behind an expression or a part of one. -/
def expressionTests : List (Token → Bool) :=
  [Token.hasText ".", Token.hasKind .leftOperator, Token.hasText ",", (!endsCall ·),
    Token.hasKind .rightOperator]

/-- The questions that are asked about the token behind a phrase. -/
def Phrase.tests : Phrase → List (Token → Bool)
  | statements | afterStatement =>
    Token.hasText ";" :: Token.hasKind .newline :: opensStatement :: expressionTests
  | _ => expressionTests

theorem Phrase.mem_tests {p : Token → Bool} (hp : p ∈ expressionTests) (phrase : Phrase) :
    p ∈ phrase.tests := by
  cases phrase with
  | statements | afterStatement =>
    exact List.mem_cons_of_mem _ (List.mem_cons_of_mem _ (List.mem_cons_of_mem _ hp))
  | _ => exact hp

/-- `rest'` continues the phrase no more than `rest` does. -/
def Quieter (phrase : Phrase) (rest rest' : List Token) : Prop :=
  ∀ p ∈ phrase.tests, begins p rest = false → begins p rest' = false

theorem begins_append {p : Token → Bool} {pre : List Token} (hpre : pre ≠ [])
    (rest rest' : List Token) : begins p (pre ++ rest) = begins p (pre ++ rest') := by
  cases pre with
  | nil => exact absurd rfl hpre
  | cons t ts => rfl

theorem nextForm_append {forms : List ValueForm} {pre : List Token} (hpre : pre ≠ [])
    (rest rest' : List Token) : nextForm forms (pre ++ rest) = nextForm forms (pre ++ rest') := by
  cases pre with
  | nil => exact absurd rfl hpre
  | cons t ts => rfl

variable {forms : List ValueForm} {phrase phrase' : Phrase} {input rest rest' : List Token}
  {ns : List Node} {x : String}

theorem Quieter.cons (t : Token) (ts ts' : List Token) : Quieter phrase (t :: ts) (t :: ts') :=
  fun _ _ h => h

/-- Behind the same tokens it does not matter which of the two comes. -/
theorem Quieter.append (h : Quieter phrase rest rest')
    (hsub : phrase'.tests ⊆ phrase.tests) (pre : List Token) :
    Quieter phrase' (pre ++ rest) (pre ++ rest') := by
  cases pre with
  | nil => exact fun p hp => h p (hsub hp)
  | cons t ts => exact .cons t _ _

theorem Quieter.expression (h : Quieter phrase rest rest')
    (hphrase : phrase'.tests = expressionTests) (pre : List Token) :
    Quieter phrase' (pre ++ rest) (pre ++ rest') :=
  h.append (fun _ hp => Phrase.mem_tests (hphrase ▸ hp) phrase) pre

theorem Quieter.test {p : Token → Bool} (h : Quieter phrase rest rest') (hp : p ∈ phrase.tests)
    (pre : List Token) (hb : begins p (pre ++ rest) = false) : begins p (pre ++ rest') = false :=
  h.append (fun _ hp => hp) pre p hp hb

theorem begins_of_head? (h : rest'.head? = rest.head?) (p : Token → Bool) :
    begins p rest' = begins p rest := by
  cases rest <;> cases rest' <;> simp_all

theorem nextForm_of_head? (h : rest'.head? = rest.head?) (forms : List ValueForm) :
    nextForm forms rest' = nextForm forms rest := by
  cases rest <;> cases rest' <;> simp_all

theorem head?_append (h : rest'.head? = rest.head?) (pre : List Token) :
    (pre ++ rest').head? = (pre ++ rest).head? := by
  cases pre with
  | nil => exact h
  | cons t ts => rfl

/-- The same first token is as quiet as before. -/
theorem Quieter.of_head? (h : rest'.head? = rest.head?) : Quieter phrase rest rest' :=
  fun p _ hb => (begins_of_head? h p).trans hb

theorem ne_nil_of_length_lt {pre : List Token} (h : rest.length < (pre ++ rest).length) :
    pre ≠ [] := by
  rintro rfl
  exact Nat.lt_irrefl _ h

/-! ## Exchanging what comes behind -/

/-- A chain that goes on takes at least one token. -/
theorem Reads.length_lt_of_operator {lhs : Node} (h : Reads forms (.operands lhs) input ns rest)
    (hop : begins (Token.hasKind .leftOperator) input = true) : rest.length < input.length := by
  cases h with
  | noOperand hop' => rw [hop] at hop'; cases hop'
  | operand _ hrhs h =>
    have := (h.suffix.trans hrhs.suffix).length_le
    exact Nat.lt_succ_of_le this

theorem Reads.exchange (h : Reads forms phrase input ns rest) :
    ∃ pre, input = pre ++ rest ∧ ∀ rest', Quieter phrase rest rest' →
      Reads forms phrase (pre ++ rest') ns rest' := by
  induction h with
  | @leaf t ts form n hform hleaf => exact ⟨[t], rfl, fun rest' _ => .leaf hform hleaf⟩
  | group hform hr ih =>
    obtain ⟨pre, rfl, ih⟩ := ih
    have hne := ne_nil_of_length_lt (hr.length_lt rfl)
    refine ⟨pre, rfl, fun rest' hq => .group ?_ (ih rest' hq)⟩
    exact (nextForm_append hne _ _).trans hform
  | @block t u ts rest ns hform _ hu ih =>
    obtain ⟨pre, rfl, ih⟩ := ih
    refine ⟨t :: (pre ++ [u]), by simp, fun rest' _ => ?_⟩
    have := ih (u :: rest') (.cons u _ _)
    rw [List.cons_append, List.append_assoc]
    exact .block hform this hu
  | @quoted t ts rest n hform _ ih =>
    obtain ⟨pre, rfl, ih⟩ := ih
    exact ⟨t :: pre, rfl, fun rest' hq => .quoted hform (ih rest' hq)⟩
  | @unquote t ts rest n hform _ ih =>
    obtain ⟨pre, rfl, ih⟩ := ih
    exact ⟨t :: pre, rfl, fun rest' hq => .unquote hform (ih rest' hq)⟩
  | @parens t u ts rest n ht _ hu ih =>
    obtain ⟨pre, rfl, ih⟩ := ih
    refine ⟨t :: (pre ++ [u]), by simp, fun rest' _ => ?_⟩
    have := ih (u :: rest') (.cons u _ _)
    rw [List.cons_append, List.append_assoc]
    exact .parens ht this hu
  | noProperty hdot =>
    exact ⟨[], rfl, fun rest' hq =>
      .noProperty (hq _ (by simp [Phrase.tests, expressionTests]) hdot)⟩
  | @property base t u ts rest ns ht hu _ ih =>
    obtain ⟨pre, rfl, ih⟩ := ih
    exact ⟨t :: u :: pre, rfl, fun rest' hq => .property ht hu (ih rest' hq)⟩
  | propertyOrValue _ _ ihb ih =>
    obtain ⟨pre₁, rfl, ihb⟩ := ihb
    obtain ⟨pre₂, rfl, ih⟩ := ih
    refine ⟨pre₁ ++ pre₂, by simp, fun rest' hq => ?_⟩
    rw [List.append_assoc]
    exact .propertyOrValue (ihb _ (hq.expression rfl pre₂)) (ih rest' hq)
  | noOperand hop =>
    exact ⟨[], rfl, fun rest' hq => .noOperand (hq _ (by simp [Phrase.tests, expressionTests]) hop)⟩
  | @operand lhs rhs op ts mid rest ns hop _ _ ihr ih =>
    obtain ⟨pre₁, rfl, ihr⟩ := ihr
    obtain ⟨pre₂, rfl, ih⟩ := ih
    refine ⟨op :: (pre₁ ++ pre₂), by simp, fun rest' hq => ?_⟩
    rw [List.cons_append, List.append_assoc]
    exact .operand hop (ihr _ (hq.expression rfl pre₂)) (ih rest' hq)
  | chain _ _ ihf ih =>
    obtain ⟨pre₁, rfl, ihf⟩ := ihf
    obtain ⟨pre₂, rfl, ih⟩ := ih
    refine ⟨pre₁ ++ pre₂, by simp, fun rest' hq => ?_⟩
    rw [List.append_assoc]
    exact .chain (ihf _ (hq.expression rfl pre₂)) (ih rest' hq)
  | noArgument hend =>
    exact ⟨[], rfl, fun rest' hq =>
      .noArgument (hq _ (by simp [Phrase.tests, expressionTests]) hend)⟩
  | argument hmore harg _ iha ih =>
    obtain ⟨pre₁, rfl, iha⟩ := iha
    obtain ⟨pre₂, rfl, ih⟩ := ih
    have hne := ne_nil_of_length_lt (harg.length_lt rfl)
    refine ⟨pre₁ ++ pre₂, by simp, fun rest' hq => ?_⟩
    rw [List.append_assoc]
    exact .argument (begins_append hne _ _ ▸ hmore) (iha _ (hq.expression rfl pre₂)) (ih rest' hq)
  | @comma t ts rest args ht _ ih =>
    obtain ⟨pre, rfl, ih⟩ := ih
    exact ⟨t :: pre, rfl, fun rest' hq => .comma ht (ih rest' hq)⟩
  | noComma hcomma _ ih =>
    obtain ⟨pre, rfl, ih⟩ := ih
    refine ⟨pre, rfl, fun rest' hq => .noComma ?_ (ih rest' hq)⟩
    exact hq.test (by simp [Phrase.tests, expressionTests]) pre hcomma
  | operation hfirst hop h ihf ih =>
    obtain ⟨pre₁, rfl, ihf⟩ := ihf
    obtain ⟨pre₂, rfl, ih⟩ := ih
    have hne := ne_nil_of_length_lt (h.length_lt_of_operator hop)
    refine ⟨pre₁ ++ pre₂, by simp, fun rest' hq => ?_⟩
    rw [List.append_assoc]
    exact .operation (ihf _ (hq.expression rfl pre₂)) (begins_append hne _ _ ▸ hop) (ih rest' hq)
  | call _ hop _ ihf ih =>
    obtain ⟨pre₁, rfl, ihf⟩ := ihf
    obtain ⟨pre₂, rfl, ih⟩ := ih
    refine ⟨pre₁ ++ pre₂, by simp, fun rest' hq => ?_⟩
    rw [List.append_assoc]
    exact .call (ihf _ (hq.expression rfl pre₂))
      (hq.test (by simp [Phrase.tests, expressionTests]) pre₂ hop) (ih rest' hq)
  | plain _ hop ih =>
    obtain ⟨pre, rfl, ih⟩ := ih
    exact ⟨pre, rfl, fun rest' hq =>
      .plain (ih rest' hq) (hq _ (by simp [Phrase.tests, expressionTests]) hop)⟩
  | @nested input mid rest lhs rhs op _ hop _ ihl ih =>
    obtain ⟨pre₁, rfl, ihl⟩ := ihl
    obtain ⟨pre₂, rfl, ih⟩ := ih
    refine ⟨pre₁ ++ op :: pre₂, by simp, fun rest' hq => ?_⟩
    rw [List.append_assoc]
    exact .nested (ihl _ (.cons op _ _)) hop (ih rest' hq)
  | @newline t ts rest ns ht _ ih =>
    obtain ⟨pre, rfl, ih⟩ := ih
    exact ⟨t :: pre, rfl, fun rest' hq => .newline ht (ih rest' hq)⟩
  | noStatement hline hend =>
    exact ⟨[], rfl, fun rest' hq => .noStatement (hq _ (by simp [Phrase.tests]) hline)
      (hq _ (by simp [Phrase.tests]) hend)⟩
  | statement hline hmore hn _ ihn ih =>
    obtain ⟨pre₁, rfl, ihn⟩ := ihn
    obtain ⟨pre₂, rfl, ih⟩ := ih
    have hne := ne_nil_of_length_lt (hn.length_lt rfl)
    refine ⟨pre₁ ++ pre₂, by simp, fun rest' hq => ?_⟩
    rw [List.append_assoc]
    exact .statement (begins_append hne _ _ ▸ hline) (begins_append hne _ _ ▸ hmore)
      (ihn _ (hq.expression rfl pre₂)) (ih rest' hq)
  | @semicolon t ts rest ns ht _ ih =>
    obtain ⟨pre, rfl, ih⟩ := ih
    exact ⟨t :: pre, rfl, fun rest' hq => .semicolon ht (ih rest' hq)⟩
  | noSemicolon hsemi _ ih =>
    obtain ⟨pre, rfl, ih⟩ := ih
    refine ⟨pre, rfl, fun rest' hq => .noSemicolon ?_ (ih rest' hq)⟩
    exact hq.test (by simp [Phrase.tests]) pre hsemi

/-- The same for tokens that are known to stand before the rest. -/
theorem Reads.exchange_append {pre : List Token} (h : Reads forms phrase (pre ++ rest) ns rest)
    (hq : Quieter phrase rest rest') : Reads forms phrase (pre ++ rest') ns rest' := by
  obtain ⟨pre', hpre, h'⟩ := h.exchange
  rw [List.append_cancel_right hpre]
  exact h' rest' hq

/-- Reading that is stuck in front of a token does not depend on anything behind that token. -/
theorem Stuck.exchange (h : Stuck forms phrase input x rest) :
    ∃ pre, input = pre ++ rest ∧ ∀ rest', rest'.head? = rest.head? →
      Stuck forms phrase (pre ++ rest') x rest' := by
  induction h with
  | noValue h =>
    refine ⟨[], rfl, fun rest' hh => .noValue ?_⟩
    rw [List.nil_append, nextForm_of_head? hh]
    exact h
  | @integer t ts hform h =>
    refine ⟨[], rfl, fun rest' hh => ?_⟩
    obtain ⟨ts', rfl⟩ := List.head?_eq_some_iff.1 hh
    exact .integer hform h
  | group hform _ ih =>
    obtain ⟨pre, rfl, ih⟩ := ih
    refine ⟨pre, rfl, fun rest' hh => .group ?_ (ih rest' hh)⟩
    exact (nextForm_of_head? (head?_append hh pre) forms).trans hform
  | @block t ts rest x hform _ ih =>
    obtain ⟨pre, rfl, ih⟩ := ih
    exact ⟨t :: pre, rfl, fun rest' hh => .block hform (ih rest' hh)⟩
  | @openBlock t ts rest ns hform hns h =>
    obtain ⟨pre, rfl⟩ := hns.suffix
    exact ⟨t :: pre, rfl, fun rest' hh =>
      .openBlock hform (hns.exchange_append (.of_head? hh)) ((begins_of_head? hh _).trans h)⟩
  | @quoted t ts rest x hform _ ih =>
    obtain ⟨pre, rfl, ih⟩ := ih
    exact ⟨t :: pre, rfl, fun rest' hh => .quoted hform (ih rest' hh)⟩
  | @unquote t ts rest x hform _ ih =>
    obtain ⟨pre, rfl, ih⟩ := ih
    exact ⟨t :: pre, rfl, fun rest' hh => .unquote hform (ih rest' hh)⟩
  | noParens h => exact ⟨[], rfl, fun rest' hh => .noParens ((begins_of_head? hh _).trans h)⟩
  | @parens t ts rest x ht _ ih =>
    obtain ⟨pre, rfl, ih⟩ := ih
    exact ⟨t :: pre, rfl, fun rest' hh => .parens ht (ih rest' hh)⟩
  | @openParens t ts rest n ht hn h =>
    obtain ⟨pre, rfl⟩ := hn.suffix
    exact ⟨t :: pre, rfl, fun rest' hh =>
      .openParens ht (hn.exchange_append (.of_head? hh)) ((begins_of_head? hh _).trans h)⟩
  | @noName base t ts ht h =>
    exact ⟨[t], rfl, fun rest' hh => .noName ht ((begins_of_head? hh _).trans h)⟩
  | @property base t u ts rest x ht hu _ ih =>
    obtain ⟨pre, rfl, ih⟩ := ih
    exact ⟨t :: u :: pre, rfl, fun rest' hh => .property ht hu (ih rest' hh)⟩
  | base _ ih =>
    obtain ⟨pre, rfl, ih⟩ := ih
    exact ⟨pre, rfl, fun rest' hh => .base (ih rest' hh)⟩
  | properties hbase _ ih =>
    obtain ⟨pre₂, rfl, ih⟩ := ih
    obtain ⟨pre₁, rfl⟩ := hbase.suffix
    refine ⟨pre₁ ++ pre₂, by simp, fun rest' hh => ?_⟩
    rw [List.append_assoc]
    exact .properties (hbase.exchange_append (.of_head? (head?_append hh pre₂))) (ih rest' hh)
  | @rightOperand lhs op ts rest x hop _ ih =>
    obtain ⟨pre, rfl, ih⟩ := ih
    exact ⟨op :: pre, rfl, fun rest' hh => .rightOperand hop (ih rest' hh)⟩
  | @operand lhs rhs op ts mid rest x hop hrhs _ ih =>
    obtain ⟨pre₂, rfl, ih⟩ := ih
    obtain ⟨pre₁, rfl⟩ := hrhs.suffix
    refine ⟨op :: (pre₁ ++ pre₂), by simp, fun rest' hh => ?_⟩
    rw [List.cons_append, List.append_assoc]
    exact .operand hop (hrhs.exchange_append (.of_head? (head?_append hh pre₂))) (ih rest' hh)
  | firstOperand _ ih =>
    obtain ⟨pre, rfl, ih⟩ := ih
    exact ⟨pre, rfl, fun rest' hh => .firstOperand (ih rest' hh)⟩
  | chain hfirst _ ih =>
    obtain ⟨pre₂, rfl, ih⟩ := ih
    obtain ⟨pre₁, rfl⟩ := hfirst.suffix
    refine ⟨pre₁ ++ pre₂, by simp, fun rest' hh => ?_⟩
    rw [List.append_assoc]
    exact .chain (hfirst.exchange_append (.of_head? (head?_append hh pre₂))) (ih rest' hh)
  | firstArgument hmore _ ih =>
    obtain ⟨pre, rfl, ih⟩ := ih
    exact ⟨pre, rfl, fun rest' hh =>
      .firstArgument ((begins_of_head? (head?_append hh pre) _).trans hmore) (ih rest' hh)⟩
  | argument hmore harg _ ih =>
    obtain ⟨pre₂, rfl, ih⟩ := ih
    obtain ⟨pre₁, rfl⟩ := harg.suffix
    refine ⟨pre₁ ++ pre₂, by simp, fun rest' hh => ?_⟩
    have hh₂ := head?_append hh pre₂
    rw [List.append_assoc]
    exact .argument ((begins_of_head? (head?_append hh₂ pre₁) _).trans hmore)
      (harg.exchange_append (.of_head? hh₂)) (ih rest' hh)
  | @comma t ts rest x ht _ ih =>
    obtain ⟨pre, rfl, ih⟩ := ih
    exact ⟨t :: pre, rfl, fun rest' hh => .comma ht (ih rest' hh)⟩
  | noComma hcomma _ ih =>
    obtain ⟨pre, rfl, ih⟩ := ih
    exact ⟨pre, rfl, fun rest' hh =>
      .noComma ((begins_of_head? (head?_append hh pre) _).trans hcomma) (ih rest' hh)⟩
  | callee _ ih =>
    obtain ⟨pre, rfl, ih⟩ := ih
    exact ⟨pre, rfl, fun rest' hh => .callee (ih rest' hh)⟩
  | operation hfirst hop _ ih =>
    obtain ⟨pre₂, rfl, ih⟩ := ih
    obtain ⟨pre₁, rfl⟩ := hfirst.suffix
    refine ⟨pre₁ ++ pre₂, by simp, fun rest' hh => ?_⟩
    have hh₂ := head?_append hh pre₂
    rw [List.append_assoc]
    exact .operation (hfirst.exchange_append (.of_head? hh₂)) ((begins_of_head? hh₂ _).trans hop)
      (ih rest' hh)
  | call hfirst hop _ ih =>
    obtain ⟨pre₂, rfl, ih⟩ := ih
    obtain ⟨pre₁, rfl⟩ := hfirst.suffix
    refine ⟨pre₁ ++ pre₂, by simp, fun rest' hh => ?_⟩
    have hh₂ := head?_append hh pre₂
    rw [List.append_assoc]
    exact .call (hfirst.exchange_append (.of_head? hh₂)) ((begins_of_head? hh₂ _).trans hop)
      (ih rest' hh)
  | lhs _ ih =>
    obtain ⟨pre, rfl, ih⟩ := ih
    exact ⟨pre, rfl, fun rest' hh => .lhs (ih rest' hh)⟩
  | @nested input mid rest lhs op x hlhs hop _ ih =>
    obtain ⟨pre₂, rfl, ih⟩ := ih
    obtain ⟨pre₁, rfl⟩ := hlhs.suffix
    refine ⟨pre₁ ++ op :: pre₂, by simp, fun rest' hh => ?_⟩
    rw [List.append_assoc]
    exact .nested (hlhs.exchange_append (.cons op _ _)) hop (ih rest' hh)
  | @newline t ts rest x ht _ ih =>
    obtain ⟨pre, rfl, ih⟩ := ih
    exact ⟨t :: pre, rfl, fun rest' hh => .newline ht (ih rest' hh)⟩
  | firstStatement hline hmore _ ih =>
    obtain ⟨pre, rfl, ih⟩ := ih
    refine ⟨pre, rfl, fun rest' hh => ?_⟩
    have hh' := head?_append hh pre
    exact .firstStatement ((begins_of_head? hh' _).trans hline)
      ((begins_of_head? hh' _).trans hmore) (ih rest' hh)
  | statement hline hmore hn _ ih =>
    obtain ⟨pre₂, rfl, ih⟩ := ih
    obtain ⟨pre₁, rfl⟩ := hn.suffix
    refine ⟨pre₁ ++ pre₂, by simp, fun rest' hh => ?_⟩
    have hh₂ := head?_append hh pre₂
    have hh₁ := head?_append hh₂ pre₁
    rw [List.append_assoc]
    exact .statement ((begins_of_head? hh₁ _).trans hline) ((begins_of_head? hh₁ _).trans hmore)
      (hn.exchange_append (.of_head? hh₂)) (ih rest' hh)
  | @semicolon t ts rest x ht _ ih =>
    obtain ⟨pre, rfl, ih⟩ := ih
    exact ⟨t :: pre, rfl, fun rest' hh => .semicolon ht (ih rest' hh)⟩
  | noSemicolon hsemi _ ih =>
    obtain ⟨pre, rfl, ih⟩ := ih
    exact ⟨pre, rfl, fun rest' hh =>
      .noSemicolon ((begins_of_head? (head?_append hh pre) _).trans hsemi) (ih rest' hh)⟩

end Juxta.Parser
