import Juxta.Proofs.Parser.Agreement
import Juxta.Proofs.Parser.Lookahead

/-!
# Errors are found as early as possible

A parse fails at the first token that cannot be part of any program: what stands before it can be
completed to a program, and what stands up to and including it cannot.

For the first half a reading that is stuck is completed.  Where a value or a name was expected, an
identifier is supplied; then everything that is open is closed, from the inside out.  A loop that is
stuck before its next item has taken a token is simply ended instead.

## What is here

* `Closing phrase tail` — nothing in `tail` continues the phrase.
* `Completable forms phrase input rest` — the phrase can be completed in the place of `rest`; one
  lemma for each way in which the phrase can be a part of another one.
* `Stuck.completable` — a reading that is stuck can be completed.
* `program_error_earliest` — errors of programs are as early as possible.
-/

set_option autoImplicit false
namespace Juxta.Parser

/-! ## Tokens that complete a reading -/

/-- An identifier, to be supplied where a value or a name is missing. -/
def fillerName : Token := ⟨.ident, "x", 0⟩

/-- An opening parenthesis. -/
def openParen : Token := ⟨.punctuation, "(", 0⟩

/-- A closing parenthesis. -/
def closeParen : Token := ⟨.punctuation, ")", 0⟩

/-- A closing brace. -/
def closeBrace : Token := ⟨.punctuation, "\x7d", 0⟩

/-- Nothing in front of `tail` continues the phrase. -/
def Closing (phrase : Phrase) (tail : List Token) : Prop :=
  ∀ p ∈ phrase.tests, begins p tail = false

theorem Closing.nil (phrase : Phrase) : Closing phrase [] :=
  fun _ _ => rfl

theorem Closing.quieter {phrase : Phrase} {tail : List Token} (h : Closing phrase tail)
    (rest : List Token) : Quieter phrase rest tail :=
  fun p hp _ => h p hp

theorem Closing.expression {phrase phrase' : Phrase} {tail : List Token} (h : Closing phrase tail)
    (hphrase : phrase'.tests = expressionTests) : Closing phrase' tail :=
  fun p hp => h p (Phrase.mem_tests (hphrase ▸ hp) phrase)

theorem closing_closeParen (tail : List Token) : Closing .expression (closeParen :: tail) := by
  have h : ∀ p ∈ expressionTests, p closeParen = false := by decide
  exact h

theorem closing_closeBrace (tail : List Token) : Closing .statements (closeBrace :: tail) := by
  have h : ∀ p ∈ Phrase.statements.tests, p closeBrace = false := by decide
  exact h

variable {forms : List ValueForm} {phrase : Phrase} {input rest tail : List Token}
  {ns : List Node} {x : String}

/-! ## Ending a reading -/

theorem Reads.propertyOrValue_of_closing {n : Node} (h : Reads forms .value input [n] tail)
    (htail : Closing .value tail) : Reads forms .propertyOrValue input [n] tail :=
  .propertyOrValue h (.noProperty (htail _ (by simp [Phrase.tests, expressionTests])))

theorem Reads.chain_of_closing {n : Node} (h : Reads forms .propertyOrValue input [n] tail)
    (htail : Closing .chain tail) : Reads forms .chain input [n] tail :=
  .chain h (.noOperand (htail _ (by simp [Phrase.tests, expressionTests])))

theorem reads_arguments_of_closing (htail : Closing .arguments tail) :
    Reads forms .arguments tail [] tail :=
  .noArgument (htail _ (by simp [Phrase.tests, expressionTests]))

theorem Reads.intermediate_of_closing {n : Node} (h : Reads forms .propertyOrValue input [n] tail)
    (htail : Closing .intermediate tail) :
    Reads forms .intermediate input [callNode n []] tail :=
  .call h (htail _ (by simp [Phrase.tests, expressionTests])) (reads_arguments_of_closing htail)

theorem Reads.expression_of_closing {n : Node} (h : Reads forms .intermediate input [n] tail)
    (htail : Closing .expression tail) : Reads forms .expression input [n] tail :=
  .plain h (htail _ (by simp [Phrase.tests, expressionTests]))

theorem reads_statements_of_closing (htail : Closing .statements tail) :
    Reads forms .statements tail [] tail :=
  .noStatement (htail _ (by simp [Phrase.tests])) (htail _ (by simp [Phrase.tests]))

/-- An identifier is an expression. -/
theorem reads_fillerName (hname : formAt forms fillerName = some .identifier)
    (htail : Closing .expression tail) :
    ∃ n, Reads forms .expression (fillerName :: tail) [n] tail := by
  have hvalue : Reads forms .value (fillerName :: tail) [_] tail := .leaf hname rfl
  exact ⟨_, ((hvalue.propertyOrValue_of_closing htail).intermediate_of_closing
    htail).expression_of_closing htail⟩

/-! ## Readings that are stuck behind a token -/

/-- Parentheses are never stuck in front of the one that opens them. -/
theorem Stuck.length_lt_of_parens (h : Stuck forms .parens input x rest)
    (hopen : begins (Token.hasText "(") input = true) : rest.length < input.length := by
  cases h with
  | noParens hnone => rw [hopen] at hnone; cases hnone
  | parens _ h => exact Nat.lt_succ_of_le h.suffix.length_le
  | openParens _ hn _ => exact Nat.lt_succ_of_le hn.suffix.length_le

/-- A chain is never stuck in front of its operator. -/
theorem Stuck.length_lt_of_operands {lhs : Node} (h : Stuck forms (.operands lhs) input x rest) :
    rest.length < input.length := by
  cases h with
  | rightOperand _ h => exact Nat.lt_succ_of_le h.suffix.length_le
  | operand _ hrhs h => exact Nat.lt_succ_of_le (h.suffix.trans hrhs.suffix).length_le

/-! ## Completing a reading -/

/-- What completes a reading that is stuck behind `pre`: it is read up to anything that closes it.
A loop that is stuck before its next item has begun is completed by nothing. -/
def Completes (forms : List ValueForm) (phrase : Phrase) (pre fin : List Token) : Prop :=
  (phrase.isSolid = false → pre = [] → fin = []) ∧
    ∀ tail, Closing phrase tail → ∃ ns, Reads forms phrase (pre ++ fin ++ tail) ns tail

/-- What is supplied in the place of `rest` continues a loop no more than `rest` does. -/
theorem Completes.quieter {pre fin : List Token} (h : Completes forms phrase pre fin)
    (hloop : phrase.isSolid = false) (htail : Closing phrase tail) :
    Quieter phrase (pre ++ rest) (pre ++ fin ++ tail) := by
  cases pre with
  | nil =>
    rw [h.1 hloop rfl]
    exact htail.quieter _
  | cons t ts => exact .cons t _ _

/-- The input can be completed in the place of `rest`, where the reading of the phrase is stuck. -/
def Completable (forms : List ValueForm) (phrase : Phrase) (input rest : List Token) : Prop :=
  ∃ pre fin, input = pre ++ rest ∧ Completes forms phrase pre fin

/-- `Resumes phrase rest input input'`: the input with something else in the place of `rest` starts
with the same token, if that is not in `rest` itself, and continues the phrase no more. -/
structure Resumes (phrase : Phrase) (rest input input' : List Token) : Prop where
  head?_eq : rest.length < input.length → input'.head? = input.head?
  quieter : Quieter phrase input input'

theorem head?_eq_of_length_lt {pre : List Token} (hlt : rest.length < (pre ++ rest).length)
    (rest' : List Token) : (pre ++ rest').head? = (pre ++ rest).head? := by
  obtain ⟨t, ts, rfl⟩ := List.exists_cons_of_ne_nil (ne_nil_of_length_lt hlt)
  rfl

/-- Nothing is missing where a phrase ends. -/
theorem Reads.completable (h : Reads forms phrase input ns rest) :
    Completable forms phrase input rest := by
  obtain ⟨pre, rfl⟩ := h.suffix
  refine ⟨pre, [], rfl, fun _ _ => rfl, fun tail htail => ⟨ns, ?_⟩⟩
  rw [List.append_nil]
  exact h.exchange_append (htail.quieter rest)

namespace Completable

variable {phrase' : Phrase} {ts mid : List Token}

/-- The phrase that is stuck stands behind some tokens, and ends with it. -/
theorem behind {front : List Token} (hfront : front ≠ []) (h : Completable forms phrase ts rest)
    (hclosing : ∀ tail, Closing phrase' tail → Closing phrase tail)
    (hread : ∀ ts' ns tail, Closing phrase' tail → Reads forms phrase ts' ns tail →
      ∃ ns', Reads forms phrase' (front ++ ts') ns' tail) :
    Completable forms phrase' (front ++ ts) rest := by
  obtain ⟨pre, fin, rfl, -, hfin⟩ := h
  refine ⟨front ++ pre, fin, (List.append_assoc ..).symm,
    fun _ hnil => absurd (List.append_eq_nil_iff.1 hnil).1 hfront, fun tail htail => ?_⟩
  obtain ⟨ns, hns⟩ := hfin tail (hclosing tail htail)
  rw [List.append_assoc, List.append_assoc, ← List.append_assoc pre]
  exact hread _ ns tail htail hns

/-- The phrase that is stuck stands between an opening token and one that closes it. -/
theorem enclosed {t u : Token} (h : Completable forms phrase ts rest)
    (hclosing : ∀ tail, Closing phrase (u :: tail))
    (hread : ∀ ts' ns tail, Reads forms phrase ts' ns (u :: tail) →
      ∃ ns', Reads forms phrase' (t :: ts') ns' tail) :
    Completable forms phrase' (t :: ts) rest := by
  obtain ⟨pre, fin, rfl, -, hfin⟩ := h
  refine ⟨t :: pre, fin ++ [u], rfl, fun _ hnil => absurd hnil (List.cons_ne_nil _ _),
    fun tail _ => ?_⟩
  obtain ⟨ns, hns⟩ := hfin (u :: tail) (hclosing tail)
  rw [List.cons_append, List.cons_append, List.append_assoc, List.append_assoc,
    List.singleton_append, ← List.append_assoc]
  exact hread _ ns tail hns

/-- The phrase that is stuck is all that there is of another one. -/
theorem under (h : Completable forms phrase input rest) (hsolid : phrase'.isSolid = true)
    (hclosing : ∀ tail, Closing phrase' tail → Closing phrase tail)
    (hread : ∀ input' ns tail, Closing phrase' tail →
      (rest.length < input.length → input'.head? = input.head?) →
      Reads forms phrase input' ns tail → ∃ ns', Reads forms phrase' input' ns' tail) :
    Completable forms phrase' input rest := by
  obtain ⟨pre, fin, rfl, -, hfin⟩ := h
  refine ⟨pre, fin, rfl, fun hs => absurd (hsolid.symm.trans hs) (by decide),
    fun tail htail => ?_⟩
  obtain ⟨ns, hns⟩ := hfin tail (hclosing tail htail)
  refine hread _ ns tail htail (fun hlt => ?_) hns
  rw [List.append_assoc]
  exact head?_eq_of_length_lt hlt _

/-- The phrase that is stuck is the first item of a loop.  If nothing of it has been read, the loop
is ended instead. -/
theorem first (h : Completable forms phrase input rest)
    (hclosing : ∀ tail, Closing phrase' tail → Closing phrase tail)
    (hend : ∀ tail, Closing phrase' tail → Reads forms phrase' tail [] tail)
    (hread : ∀ input' ns tail, Closing phrase' tail → input'.head? = input.head? →
      Reads forms phrase input' ns tail → ∃ ns', Reads forms phrase' input' ns' tail) :
    Completable forms phrase' input rest := by
  obtain ⟨pre, fin, rfl, -, hfin⟩ := h
  cases pre with
  | nil => exact ⟨[], [], rfl, fun _ _ => rfl, fun tail htail => ⟨[], hend tail htail⟩⟩
  | cons t pre =>
    refine ⟨t :: pre, fin, rfl, fun _ hnil => absurd hnil (List.cons_ne_nil _ _),
      fun tail htail => ?_⟩
    obtain ⟨ns, hns⟩ := hfin tail (hclosing tail htail)
    exact hread _ ns tail htail rfl hns

/-- A part has been read, perhaps behind some tokens, and the loop behind it is stuck. -/
theorem after {part loop : Phrase} {n : Node} (front : List Token)
    (h : Completable forms loop mid rest) (hpart : Reads forms part input [n] mid)
    (hloop : loop.isSolid = false) (htests : part.tests = expressionTests)
    (hclosing : ∀ tail, Closing phrase' tail → Closing loop tail)
    (hread : ∀ input' mid' ns tail, Resumes part mid input input' → Resumes loop rest mid mid' →
      Reads forms part input' [n] mid' → Reads forms loop mid' ns tail →
      ∃ ns', Reads forms phrase' (front ++ input') ns' tail) :
    Completable forms phrase' (front ++ input) rest := by
  obtain ⟨pre₁, rfl⟩ := hpart.suffix
  obtain ⟨pre₂, fin, rfl, hfin⟩ := h
  refine ⟨front ++ (pre₁ ++ pre₂), fin, by simp only [List.append_assoc], fun _ hnil => ?_,
    fun tail htail => ?_⟩
  · exact hfin.1 hloop (List.append_eq_nil_iff.1 (List.append_eq_nil_iff.1 hnil).2).2
  · obtain ⟨ns, hns⟩ := hfin.2 tail (hclosing tail htail)
    have hquieter : Quieter loop (pre₂ ++ rest) (pre₂ ++ fin ++ tail) :=
      hfin.quieter hloop (hclosing tail htail)
    have hpart' : Reads forms part (pre₁ ++ (pre₂ ++ fin ++ tail)) [n] (pre₂ ++ fin ++ tail) :=
      hpart.exchange_append (hquieter.expression htests [])
    have hinput : Resumes part (pre₂ ++ rest) (pre₁ ++ (pre₂ ++ rest))
        (pre₁ ++ (pre₂ ++ fin ++ tail)) :=
      ⟨fun hlt => head?_eq_of_length_lt hlt _, hquieter.expression htests pre₁⟩
    have hmid : Resumes loop rest (pre₂ ++ rest) (pre₂ ++ fin ++ tail) := by
      refine ⟨fun hlt => ?_, hquieter⟩
      rw [List.append_assoc]
      exact head?_eq_of_length_lt hlt _
    obtain ⟨ns', hns'⟩ := hread _ _ ns tail hinput hmid hpart' hns
    refine ⟨ns', ?_⟩
    simpa only [List.append_assoc] using hns'

end Completable

/-- A reading that is stuck can be completed. -/
theorem Stuck.completable (hname : formAt forms fillerName = some .identifier)
    (h : Stuck forms phrase input x rest) : Completable forms phrase input rest := by
  induction h with
  | noValue | integer =>
    exact ⟨[], [fillerName], rfl, fun hs => absurd hs (by decide),
      fun tail _ => ⟨_, .leaf hname rfl⟩⟩
  | group hform h ih =>
    refine ih.under rfl (fun _ => id) fun _ ns _ _ hhead hns => ⟨ns, .group ?_ hns⟩
    have hlt := h.length_lt_of_parens (begins_of_nextForm hform)
    exact (nextForm_of_head? (hhead hlt) forms).trans hform
  | block hform _ ih =>
    exact ih.enclosed closing_closeBrace fun _ _ _ hns => ⟨_, .block hform hns rfl⟩
  | openBlock hform hns =>
    exact hns.completable.enclosed closing_closeBrace fun _ _ _ hns => ⟨_, .block hform hns rfl⟩
  | @quoted t _ _ _ hform _ ih =>
    refine ih.behind (List.cons_ne_nil t []) (fun _ => id) fun _ _ _ _ hns => ?_
    obtain ⟨n, rfl⟩ := hns.exists_singleton rfl
    exact ⟨_, .quoted hform hns⟩
  | @unquote t _ _ _ hform _ ih =>
    refine ih.behind (List.cons_ne_nil t []) (fun _ => id) fun _ _ _ _ hns => ?_
    obtain ⟨n, rfl⟩ := hns.exists_singleton rfl
    exact ⟨_, .unquote hform hns⟩
  | noParens =>
    refine ⟨[], [openParen, fillerName, closeParen], rfl, fun hs => absurd hs (by decide),
      fun tail _ => ?_⟩
    obtain ⟨n, hn⟩ := reads_fillerName hname (closing_closeParen tail)
    exact ⟨_, .parens rfl hn rfl⟩
  | parens ht _ ih =>
    refine ih.enclosed closing_closeParen fun _ _ _ hns => ?_
    obtain ⟨n, rfl⟩ := hns.exists_singleton rfl
    exact ⟨_, .parens ht hns rfl⟩
  | openParens ht hn =>
    refine hn.completable.enclosed closing_closeParen fun _ _ _ hns => ?_
    obtain ⟨n, rfl⟩ := hns.exists_singleton rfl
    exact ⟨_, .parens ht hns rfl⟩
  | @noName _ t _ ht =>
    refine ⟨[t], [fillerName], rfl, fun _ hnil => absurd hnil (List.cons_ne_nil _ _),
      fun tail htail => ?_⟩
    exact ⟨_, .property ht rfl (.noProperty (htail _ (by simp [Phrase.tests, expressionTests])))⟩
  | @property _ t u _ _ _ ht hu _ ih =>
    exact ih.behind (List.cons_ne_nil t [u]) (fun _ => id)
      fun _ ns _ _ hns => ⟨ns, .property ht hu hns⟩
  | base _ ih =>
    refine ih.under rfl (fun _ => id) fun _ _ _ htail _ hns => ?_
    obtain ⟨n, rfl⟩ := hns.exists_singleton rfl
    exact ⟨_, hns.propertyOrValue_of_closing htail⟩
  | properties hbase _ ih =>
    exact ih.after [] hbase rfl rfl (fun _ => id)
      fun _ _ ns _ _ _ hbase hns => ⟨ns, .propertyOrValue hbase hns⟩
  | @rightOperand _ op _ _ _ hop _ ih =>
    refine ih.behind (List.cons_ne_nil op []) (fun _ => id) fun _ _ _ htail hns => ?_
    obtain ⟨n, rfl⟩ := hns.exists_singleton rfl
    exact ⟨_, .operand hop hns (.noOperand (htail _ (by simp [Phrase.tests, expressionTests])))⟩
  | @operand _ _ op _ _ _ _ hop hrhs _ ih =>
    exact ih.after [op] hrhs rfl rfl (fun _ => id)
      fun _ _ ns _ _ _ hrhs hns => ⟨ns, .operand hop hrhs hns⟩
  | firstOperand _ ih =>
    refine ih.under rfl (fun _ => id) fun _ _ _ htail _ hns => ?_
    obtain ⟨n, rfl⟩ := hns.exists_singleton rfl
    exact ⟨_, hns.chain_of_closing htail⟩
  | chain hfirst _ ih =>
    exact ih.after [] hfirst rfl rfl (fun _ => id)
      fun _ _ ns _ _ _ hfirst hns => ⟨ns, .chain hfirst hns⟩
  | firstArgument hmore _ ih =>
    refine ih.first (fun _ => id) (fun _ => reads_arguments_of_closing)
      fun _ _ _ htail hhead hns => ?_
    obtain ⟨n, rfl⟩ := hns.exists_singleton rfl
    have hcomma := htail (Token.hasText ",") (by simp [Phrase.tests, expressionTests])
    exact ⟨_, .argument ((begins_of_head? hhead _).trans hmore) hns
      (.noComma hcomma (reads_arguments_of_closing htail))⟩
  | argument hmore harg _ ih =>
    refine ih.after [] harg rfl rfl (fun _ => id) fun _ _ _ _ hinput _ harg' hargs => ?_
    have hhead := hinput.head?_eq (harg.length_lt rfl)
    exact ⟨_, .argument ((begins_of_head? hhead _).trans hmore) harg' hargs⟩
  | @comma t _ _ _ ht _ ih =>
    exact ih.behind (List.cons_ne_nil t []) (fun _ => id) fun _ ns _ _ hns => ⟨ns, .comma ht hns⟩
  | noComma hcomma _ ih =>
    obtain ⟨pre, fin, rfl, hfin⟩ := ih
    refine ⟨pre, fin, rfl, hfin.1, fun tail htail => ?_⟩
    obtain ⟨ns, hns⟩ := hfin.2 tail htail
    have hquieter := hfin.quieter rfl htail _ (by simp [Phrase.tests, expressionTests]) hcomma
    exact ⟨ns, .noComma hquieter hns⟩
  | callee _ ih =>
    refine ih.under rfl (fun _ => id) fun _ _ _ htail _ hns => ?_
    obtain ⟨n, rfl⟩ := hns.exists_singleton rfl
    exact ⟨_, hns.intermediate_of_closing htail⟩
  | operation hfirst hop h ih =>
    refine ih.after [] hfirst rfl rfl (fun _ => id) fun _ _ ns _ _ hmid hfirst hns => ?_
    have hhead := hmid.head?_eq h.length_lt_of_operands
    exact ⟨ns, .operation hfirst ((begins_of_head? hhead _).trans hop) hns⟩
  | call hfirst hop _ ih =>
    refine ih.after [] hfirst rfl rfl (fun _ => id) fun _ _ _ _ _ hmid hfirst hns => ?_
    have hquieter := hmid.quieter _ (by simp [Phrase.tests, expressionTests]) hop
    exact ⟨_, .call hfirst hquieter hns⟩
  | lhs _ ih =>
    refine ih.under rfl (fun _ => id) fun _ _ _ htail _ hns => ?_
    obtain ⟨n, rfl⟩ := hns.exists_singleton rfl
    exact ⟨_, hns.expression_of_closing htail⟩
  | @nested _ mid _ _ op _ hlhs hop _ ih =>
    obtain ⟨pre, rfl⟩ := hlhs.suffix
    rw [List.append_cons]
    refine ih.behind (List.concat_ne_nil op pre) (fun _ => id) fun ts' _ _ _ hns => ?_
    obtain ⟨n, rfl⟩ := hns.exists_singleton rfl
    -- the left side is followed by the operator as before
    have hlhs' := hlhs.exchange_append (.cons op mid ts')
    rw [← List.append_cons]
    exact ⟨_, .nested hlhs' hop hns⟩
  | @newline t _ _ _ ht _ ih =>
    exact ih.behind (List.cons_ne_nil t []) (fun _ => id) fun _ ns _ _ hns => ⟨ns, .newline ht hns⟩
  | firstStatement hline hmore _ ih =>
    refine ih.first (fun _ htail => htail.expression rfl) (fun _ => reads_statements_of_closing)
      fun _ _ _ htail hhead hns => ?_
    obtain ⟨n, rfl⟩ := hns.exists_singleton rfl
    have hsemi := htail (Token.hasText ";") (by simp [Phrase.tests])
    exact ⟨_, .statement ((begins_of_head? hhead _).trans hline)
      ((begins_of_head? hhead _).trans hmore) hns
      (.noSemicolon hsemi (reads_statements_of_closing htail))⟩
  | statement hline hmore hn _ ih =>
    refine ih.after [] hn rfl rfl (fun _ => id) fun _ _ _ _ hinput _ hn' hns => ?_
    have hhead := hinput.head?_eq (hn.length_lt rfl)
    exact ⟨_, .statement ((begins_of_head? hhead _).trans hline)
      ((begins_of_head? hhead _).trans hmore) hn' hns⟩
  | @semicolon t _ _ _ ht _ ih =>
    exact ih.behind (List.cons_ne_nil t []) (fun _ => id)
      fun _ ns _ _ hns => ⟨ns, .semicolon ht hns⟩
  | noSemicolon hsemi _ ih =>
    obtain ⟨pre, fin, rfl, hfin⟩ := ih
    refine ⟨pre, fin, rfl, hfin.1, fun tail htail => ?_⟩
    obtain ⟨ns, hns⟩ := hfin.2 tail htail
    have hquieter := hfin.quieter rfl htail _ (by simp [Phrase.tests]) hsemi
    exact ⟨ns, .noSemicolon hquieter hns⟩

/-! ## Programs -/

theorem formAt_fillerName : formAt Settings.standard.forms fillerName = some .identifier := by
  decide

/-- What stands before the place where a token list is rejected is the beginning of a program. -/
theorem Rejects.viable {ts : List Token} (h : Rejects Settings.standard.forms ts x rest) :
    ∃ pre fin ns, ts = pre ++ rest ∧
      Reads Settings.standard.forms .statements (pre ++ fin) ns [] := by
  rcases h with h | ⟨-, -, ns, h⟩
  · obtain ⟨pre, fin, hts, -, hfin⟩ := h.completable formAt_fillerName
    obtain ⟨ns, hns⟩ := hfin [] (.nil _)
    exact ⟨pre, fin, ns, hts, by simpa using hns⟩
  · obtain ⟨pre, rfl⟩ := h.suffix
    exact ⟨pre, [], ns, rfl, h.exchange_append ((Closing.nil _).quieter rest)⟩

/-- Whatever comes behind the token at which a list is rejected, it is rejected there. -/
theorem Rejects.exchange {t : Token} {ts pre : List Token}
    (h : Rejects forms (pre ++ t :: ts) x (t :: ts)) (ts' : List Token) :
    Rejects forms (pre ++ t :: ts') x (t :: ts') := by
  rcases h with h | ⟨hx, -, ns, h⟩
  · obtain ⟨pre', hpre, h⟩ := h.exchange
    rw [List.append_cancel_right hpre]
    exact .inl (h _ rfl)
  · exact .inr ⟨hx, List.cons_ne_nil _ _, ns, h.exchange_append (.cons t _ _)⟩

/-! ### The cursor of a state -/

variable {s : State} {ts : List Token}

theorem State.take_cursor (h : s.tokens = ts) : ts.take s.cursor = s.seen.reverse := by
  rw [← h, State.tokens, State.cursor, ← List.length_reverse]
  exact List.take_left

theorem State.getElem?_cursor (h : s.tokens = ts) : ts[s.cursor]? = s.current := by
  rw [← h, State.tokens, State.cursor, ← List.length_reverse, List.getElem?_append_right
    (Nat.le_refl _), Nat.sub_self, State.current, List.head?_eq_getElem?]

theorem State.exists_ahead (h : s.tokens = ts) (hlt : s.cursor < ts.length) :
    ∃ t ahead, s.ahead = t :: ahead := by
  rw [← h, State.tokens, State.cursor, List.length_append, List.length_reverse] at hlt
  exact List.exists_cons_of_length_pos (by omega)

theorem State.take_cursor_succ {t : Token} {ahead : List Token} (h : s.tokens = ts)
    (hahead : s.ahead = t :: ahead) : ts.take (s.cursor + 1) = s.seen.reverse ++ [t] := by
  rw [List.take_add_one, State.take_cursor h, State.getElem?_cursor h, State.current, hahead,
    List.head?_cons, Option.toList_some]

/-- The offset of an error at the place with the given number: where the token there starts, or
where the last token ends. -/
def errorOffset (ts : List Token) (place : Nat) : Int :=
  match ts[place]? with
  | some t => t.pos
  | none => (ts.getLast?.map Token.stop).getD 0

theorem State.offset_eq (h : s.tokens = ts) : s.offset = errorOffset ts s.cursor := by
  rw [errorOffset, State.getElem?_cursor h, State.current, State.offset]
  cases hahead : s.ahead with
  | cons t ahead => rfl
  | nil =>
    rw [← h, State.tokens, hahead, List.append_nil, List.getLast?_reverse]
    cases s.seen <;> rfl

/-- **Errors are found as early as possible.**  When a program is rejected, the error is that of the
token at the cursor, or of the end of the list; the tokens before the cursor can be completed to a
program; and whatever follows the token at the cursor, the error stays the same. -/
theorem program_error_earliest {e : ParseError}
    (h : parseTokens .standard .program ts = .error e s) :
    s.cursor ≤ ts.length ∧ e.found = describe ts[s.cursor]? ∧
      e.offset = some (errorOffset ts s.cursor) ∧
      (∃ fin node s', parseTokens .standard .program (ts.take s.cursor ++ fin) = .ok node s') ∧
      (s.cursor < ts.length → ∀ fin, ∃ s',
        parseTokens .standard .program (ts.take (s.cursor + 1) ++ fin) = .error e s' ∧
          s'.cursor = s.cursor) := by
  obtain ⟨hs, x, rfl, hx⟩ := rejects_of_parseTokens h
  refine ⟨?_, ?_, ?_, ?_, ?_⟩
  · rw [← hs, State.tokens, State.cursor, List.length_append, List.length_reverse]
    exact Nat.le_add_right _ _
  · rw [State.getElem?_cursor hs]
    rfl
  · rw [← State.offset_eq hs]
    rfl
  · obtain ⟨pre, fin, ns, hts, hread⟩ := hx.viable
    have hpre : pre = s.seen.reverse := by
      rw [← hs, State.tokens] at hts
      exact (List.append_cancel_right hts).symm
    rw [State.take_cursor hs, ← hpre]
    obtain ⟨s', hs', -⟩ := parseTokens_of_reads hread
    exact ⟨fin, _, s', hs'⟩
  · intro hlt fin
    obtain ⟨t, ahead, hahead⟩ := State.exists_ahead hs hlt
    rw [← hs, State.tokens, hahead] at hx
    obtain ⟨s', hp, hs', hahead'⟩ := parseTokens_of_rejects (hx.exchange fin)
    rw [State.take_cursor_succ hs hahead, List.append_assoc, List.singleton_append]
    have hseen : s'.seen = s.seen := by
      rw [State.tokens, hahead'] at hs'
      exact List.reverse_inj.1 (List.append_cancel_right hs')
    have herror : s'.error x = s.error x := by
      simp only [State.error, State.current, State.offset, hahead, hahead', List.head?_cons]
    exact ⟨s', by rw [hp, herror], by rw [State.cursor, hseen, State.cursor]⟩

/-- Behind `f ) x` nothing helps: the program ends in front of the parenthesis. -/
theorem program_error_earliest_unopened :
    parseTokens .standard .program [⟨.ident, "f", 0⟩, closeParen, ⟨.ident, "x", 4⟩] =
        .error ⟨"value", "\")\"", some 0, none⟩
          ⟨[⟨.ident, "f", 0⟩], [closeParen, ⟨.ident, "x", 4⟩], 0, []⟩ ∧
      ∀ fin, ∃ s', parseTokens .standard .program
        ([⟨.ident, "f", 0⟩, closeParen] ++ fin) = .error ⟨"value", "\")\"", some 0, none⟩ s' ∧
          s'.cursor = 1 := by
  have h : parseTokens .standard .program [⟨.ident, "f", 0⟩, closeParen, ⟨.ident, "x", 4⟩] =
      .error ⟨"value", "\")\"", some 0, none⟩
        ⟨[⟨.ident, "f", 0⟩], [closeParen, ⟨.ident, "x", 4⟩], 0, []⟩ := by
    rfl
  obtain ⟨-, -, -, -, hfin⟩ := program_error_earliest h
  exact ⟨h, hfin (by decide)⟩

end Juxta.Parser
