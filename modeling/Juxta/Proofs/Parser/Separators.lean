import Juxta.Proofs.Parser.EntryPoints

/-!
# Separators are transparent

Commas, semicolons and line ends leave no trace in a tree.  In a program, commas may be deleted,
semicolons may become line ends, and line ends may be followed by more of them, in any places at
once: what is read is the same tree, with the same starts.

The three are skipped in different places.  A comma is skipped only behind an argument, a semicolon
only behind a statement, and a line end wherever a statement may begin; but a line end also ends a
call, and a comma keeps apart what would otherwise be one argument.  So that an argument ends where
it did, nothing behind a deleted comma may continue it.  In a program nothing does, since what is
behind the comma is another argument or the end of the call.

## What is here

* `Respaced atLine ts us` — the tokens `us` are `ts` with other separators.
* `Settled`, `SettledBehindComma` — nothing in front of these tokens continues an argument.
* `Respaces` — the phrase is read with other separators as well; one lemma for each way in which a
  phrase can be a part of another one.
* `Reads.respaces` — what is read from tokens is read from them with other separators.
* `separators_are_transparent` — the same for programs and for sequences of statements.
-/

set_option autoImplicit false
namespace Juxta.Parser

variable {forms : List ValueForm} {phrase : Phrase} {t u : Token} {ts us input rest : List Token}
  {ns : List Node} {atLine : Bool} {p : Token → Bool}

/-! ## Other separators -/

/-- A line end, which by its text is nothing else for the grammar. -/
structure IsLineEnd (t : Token) : Prop where
  kind : t.kind = .newline
  text : t.text ∉ signs

/-- The line ends of a source are such. -/
theorem isLineEnd_of_lexical (h : t.Lexical) (hk : t.kind = .newline) : IsLineEnd t := by
  obtain ⟨c, l, hcl, hlead⟩ := h.exists_cons
  rw [hk] at hlead
  obtain rfl : c = '\n' := of_decide_eq_true hlead
  refine ⟨hk, fun hmem => ?_⟩
  have hsigns : ∀ sign ∈ signs, sign.toList.head? ≠ some '\n' := by decide
  exact hsigns _ hmem (by rw [hcl]; rfl)

/-- Whether line ends may be inserted directly behind a token. -/
def opensLine (t : Token) : Bool :=
  t.kind = .newline || t.text = ";" || t.text = "\x7b"

/-- `Respaced atLine ts us`: the tokens `us` are `ts` without some of the commas, with line ends in
place of some of the semicolons, and with further line ends beside other line ends, behind
semicolons and opening braces, and at the end; also in front, if `atLine` says so. -/
inductive Respaced : Bool → List Token → List Token → Prop
  | nil {atLine : Bool} : Respaced atLine [] []
  | keep {atLine : Bool} {t : Token} {ts us : List Token} (h : Respaced (opensLine t) ts us) :
      Respaced atLine (t :: ts) (t :: us)
  | comma {atLine : Bool} {t : Token} {ts us : List Token} (ht : t.text = ",")
      (h : Respaced false ts us) : Respaced atLine (t :: ts) us
  | semicolon {atLine : Bool} {t u : Token} {ts us : List Token} (ht : t.text = ";")
      (hu : IsLineEnd u) (h : Respaced true ts us) : Respaced atLine (t :: ts) (u :: us)
  | insert {atLine : Bool} {u : Token} {ts us : List Token}
      (hplace : atLine = true ∨ ts = [] ∨ begins (Token.hasKind .newline) ts = true)
      (hu : IsLineEnd u) (h : Respaced true ts us) : Respaced atLine ts (u :: us)

namespace Respaced

/-- Where line ends may be inserted, fewer may be. -/
theorem mono (h : Respaced false ts us) (atLine : Bool) : Respaced atLine ts us := by
  cases h with
  | nil => exact .nil
  | keep h => exact .keep h
  | comma ht h => exact .comma ht h
  | semicolon ht hu h => exact .semicolon ht hu h
  | insert hplace hu h => exact .insert (.inr (hplace.resolve_left nofun)) hu h

/-- The line ends that are inserted in front. -/
theorem exists_lines (h : Respaced atLine ts us) :
    ∃ lines us', us = lines ++ us' ∧ (∀ t ∈ lines, t.kind = .newline) ∧ Respaced false ts us' := by
  induction h with
  | nil => exact ⟨[], [], rfl, List.forall_mem_nil _, .nil⟩
  | keep h => exact ⟨[], _, rfl, List.forall_mem_nil _, .keep h⟩
  | comma ht h => exact ⟨[], _, rfl, List.forall_mem_nil _, .comma ht h⟩
  | semicolon ht hu h => exact ⟨[], _, rfl, List.forall_mem_nil _, .semicolon ht hu h⟩
  | insert _ hu _ ih =>
    obtain ⟨lines, us', rfl, hlines, h⟩ := ih
    exact ⟨_ :: lines, us', rfl, List.forall_mem_cons.2 ⟨hu.kind, hlines⟩, h⟩

/-- The line ends around one that is there already. -/
theorem of_line (h : Respaced atLine (t :: ts) us) (ht : IsLineEnd t) :
    ∃ lines us', us = lines ++ us' ∧ (∀ t ∈ lines, t.kind = .newline) ∧ Respaced true ts us' := by
  generalize hinput : t :: ts = input at h
  induction h with
  | nil => cases hinput
  | @keep _ _ _ us h =>
    obtain ⟨rfl, rfl⟩ := List.cons.inj hinput
    have hopens : opensLine t = true := by simp [opensLine, ht.kind]
    exact ⟨[t], us, rfl, List.forall_mem_singleton.2 ht.kind, hopens ▸ h⟩
  | comma htext | semicolon htext =>
    obtain ⟨rfl, rfl⟩ := List.cons.inj hinput
    exact absurd (by rw [htext]; decide) ht.text
  | @insert _ u _ _ _ hu _ ih =>
    obtain ⟨lines, us', rfl, hlines, h⟩ := ih hinput
    exact ⟨u :: lines, us', rfl, List.forall_mem_cons.2 ⟨hu.kind, hlines⟩, h⟩

/-- At the end there are only line ends. -/
theorem kind_of_nil (h : Respaced atLine [] us) : ∀ t ∈ us, t.kind = .newline := by
  generalize hts : ([] : List Token) = ts at h
  induction h with
  | nil => exact List.forall_mem_nil _
  | keep | comma | semicolon => cases hts
  | insert _ hu _ ih => exact List.forall_mem_cons.2 ⟨hu.kind, ih hts⟩

/-- A token that does not only separate stays, and nothing is inserted in front of it. -/
theorem of_cons (h : Respaced false (t :: ts) us) (ht : t.isSeparator = false) :
    ∃ us', us = t :: us' ∧ Respaced (opensLine t) ts us' := by
  simp only [Token.isSeparator, Bool.or_eq_false_iff, decide_eq_false_iff_not] at ht
  cases h with
  | keep h => exact ⟨_, rfl, h⟩
  | comma htext => exact absurd htext ht.2
  | semicolon htext => exact absurd htext ht.1.2
  | insert hplace =>
    rcases hplace with hplace | hplace | hplace
    · cases hplace
    · cases hplace
    · exact absurd (by simpa using hplace) ht.1.1

/-- What no first token continues, no first line end does: this stays so as long as no comma is
deleted. -/
theorem begins_eq_false (h : Respaced atLine ts us) (hline : ∀ u, IsLineEnd u → p u = false)
    (hcomma : begins (Token.hasText ",") ts = false) (hp : begins p ts = false) :
    begins p us = false := by
  cases h with
  | nil => rfl
  | keep => exact hp
  | comma ht => simp [ht] at hcomma
  | semicolon _ hu => exact hline _ hu
  | insert _ hu => exact hline _ hu

end Respaced

namespace IsLineEnd

theorem hasText (h : IsLineEnd t) {sign : String} (hsign : sign ∈ signs) :
    t.hasText sign = false :=
  Token.hasText_eq_false.2 fun htext => h.text (htext ▸ hsign)

theorem hasKind (h : IsLineEnd t) {k : Token.Kind} (hk : k ≠ .newline) : t.hasKind k = false :=
  Token.hasKind_eq_false.2 fun hkind => hk (hkind.symm.trans h.kind)

theorem endsCall (h : IsLineEnd t) : (!Parser.endsCall t) = false := by
  simp [Parser.endsCall, h.kind]

end IsLineEnd

/-! ## Behind an argument -/

/-- Nothing in front of these tokens continues an argument, and no comma ends it. -/
structure Settled (ts : List Token) : Prop where
  point : begins (Token.hasText ".") ts = false
  operator : begins (Token.hasKind .leftOperator) ts = false
  comma : begins (Token.hasText ",") ts = false

/-- If a comma is in front of these tokens, nothing behind it continues an argument. -/
def SettledBehindComma (ts : List Token) : Prop :=
  ∀ t us, ts = t :: us → t.text = "," → Settled us

theorem Settled.cons (hpoint : t.text ≠ ".") (hcomma : t.text ≠ ",")
    (hk : t.kind ≠ .leftOperator) : Settled (t :: ts) :=
  ⟨by simpa using hpoint, by simpa using hk, by simpa using hcomma⟩

theorem settledBehindComma_cons (h : t.text ≠ ",") : SettledBehindComma (t :: ts) := by
  rintro _ _ ⟨⟩ htext
  exact absurd htext h

theorem Ends.settled (h : Ends ts) : Settled ts :=
  ⟨h.point, h.operator, h.comma⟩

theorem Settled.behindComma (h : Settled ts) : SettledBehindComma ts := by
  rintro t us rfl htext
  exact absurd htext (by simpa using h.comma)

/-- A question with the answer no is answered so with other separators as well, also behind a comma
that is deleted. -/
theorem Respaced.begins_behindComma (h : Respaced false ts us) (hsettled : SettledBehindComma ts)
    (hline : ∀ u, IsLineEnd u → p u = false) (hbehind : ∀ ts, Settled ts → begins p ts = false)
    (hp : begins p ts = false) : begins p us = false := by
  cases h with
  | nil => rfl
  | keep => exact hp
  | comma ht h =>
    have hts := hsettled _ _ rfl ht
    exact h.begins_eq_false hline hts.comma (hbehind _ hts)
  | semicolon _ hu => exact hline _ hu
  | insert _ hu => exact hline _ hu

/-! ## Tokens that stay -/

/-- A token of a class other than marks and line ends stays. -/
theorem Respaced.of_kind (h : Respaced false (t :: ts) us) (hlex : t.Lexical)
    (hpunct : t.kind ≠ .punctuation) (hline : t.kind ≠ .newline) :
    ∃ us', us = t :: us' ∧ Respaced false ts us' := by
  have hne {c : Char} (hc : Token.isPunctuation c = true) : t.text ≠ String.ofList [c] :=
    fun htext => hpunct (hlex.kind_of_text hc htext)
  have hsemi : t.text ≠ ";" := hne (c := ';') rfl
  have hbrace : t.text ≠ "\x7b" := hne (c := '\x7b') rfl
  have hopens : opensLine t = false := by simp [opensLine, hline, hsemi, hbrace]
  obtain ⟨us', hus, hrest⟩ := h.of_cons (not_separator_of_kind hlex hpunct hline)
  exact ⟨us', hus, hopens ▸ hrest⟩

/-- A mark that is no separator stays.  Only behind an opening brace a line begins. -/
theorem Respaced.of_mark {c : Char} (h : Respaced false (t :: ts) us) (hlex : t.Lexical)
    (hc : Token.isPunctuation c = true) (hsemi : c ≠ ';') (hcomma : c ≠ ',')
    (htext : t.text = String.ofList [c]) :
    ∃ us', us = t :: us' ∧ Respaced (c = '\x7b') ts us' := by
  have hne {d : Char} : t.text = String.ofList [d] ↔ c = d := by
    rw [htext, String.ofList_inj, List.cons.injEq, eq_self, and_true]
  have hsemi' : t.text ≠ ";" := fun htext => hsemi (hne.1 htext)
  have hbrace : t.text = "\x7b" ↔ c = '\x7b' := hne
  have hopens : opensLine t = decide (c = '\x7b') := by
    simp [opensLine, hlex.kind_of_text hc htext, hsemi', hbrace]
  obtain ⟨us', hus, hrest⟩ :=
    h.of_cons (standsFor_mark hlex hc hsemi hcomma htext).not_separator
  exact ⟨us', hus, hopens ▸ hrest⟩

/-- A comma stays, or it is deleted. -/
theorem Respaced.of_comma (h : Respaced false (t :: ts) us) (hlex : t.Lexical)
    (ht : t.text = ",") : Respaced false ts us ∨ ∃ us', us = t :: us' ∧ Respaced false ts us' := by
  have hkind := hlex.kind_of_text (c := ',') rfl ht
  cases h with
  | keep h =>
    have hopens : opensLine t = false := by simp [opensLine, hkind, ht]
    exact .inr ⟨_, rfl, hopens ▸ h⟩
  | comma _ h => exact .inl h
  | semicolon htext => exact absurd (ht.symm.trans htext) (by decide)
  | insert hplace => simp [hkind] at hplace

/-- A semicolon stays, or it becomes a line end.  Behind it a line begins. -/
theorem Respaced.of_semicolon (h : Respaced false (t :: ts) us) (hlex : t.Lexical)
    (ht : t.text = ";") :
    ∃ u us', us = u :: us' ∧ Respaced true ts us' ∧ (u = t ∨ IsLineEnd u) := by
  have hkind := hlex.kind_of_text (c := ';') rfl ht
  cases h with
  | keep h =>
    have hopens : opensLine t = true := by simp [opensLine, ht]
    exact ⟨t, _, rfl, hopens ▸ h, .inl rfl⟩
  | comma htext => exact absurd (ht.symm.trans htext) (by decide)
  | semicolon _ hu h => exact ⟨_, _, rfl, h, .inr hu⟩
  | insert hplace => simp [hkind] at hplace

/-- The first token of a value is no separator and continues no argument. -/
theorem leads_settled {form : ValueForm} (hlex : t.Lexical) (h : form.leads t = true)
    (ts : List Token) : t.isSeparator = false ∧ Settled (t :: ts) := by
  by_cases hk : t.kind = .punctuation
  · have htext : t.text = "(" ∨ t.text = "\x7b" := by
      cases form <;> simp [ValueForm.leads, hk] at h <;> simp [h]
    rcases htext with htext | htext
    all_goals
      refine ⟨by simp [Token.isSeparator, hk, htext], .cons ?_ ?_ (by simp [hk])⟩
      all_goals simp [htext]
  · have hne {c : Char} (hc : Token.isPunctuation c = true) : t.text ≠ String.ofList [c] :=
      fun htext => hk (hlex.kind_of_text hc htext)
    have hkind : t.kind ≠ .newline ∧ t.kind ≠ .leftOperator := by
      cases form with
      | parens => exact absurd (Token.hasText_eq_true.1 h) (hne (c := '(') rfl)
      | block => exact absurd (Token.hasText_eq_true.1 h) (hne (c := '\x7b') rfl)
      | identifier | integer | float | string | quoted | unquote =>
        rw [Token.hasKind_eq_true.1 h]
        decide
    exact ⟨not_separator_of_kind hlex hk hkind.1,
      .cons (hne (c := '.') rfl) (hne (c := ',') rfl) hkind.2⟩

/-- What begins with a value continues no argument, and its first token stays. -/
theorem Reads.settled (h : Reads forms phrase input ns rest) (hsolid : phrase.isSolid = true)
    (hparens : phrase ≠ .parens) (hlex : ∀ t ∈ input, t.Lexical) :
    Settled input ∧ ∀ us, Respaced false input us → us.head? = input.head? := by
  obtain ⟨t, ts, form, rfl, hform⟩ := h.exists_formAt hsolid hparens
  obtain ⟨hsep, hsettled⟩ :=
    leads_settled (hlex t List.mem_cons_self) (leads_of_formAt hform) ts
  refine ⟨hsettled, fun us hus => ?_⟩
  obtain ⟨us', rfl, -⟩ := hus.of_cons hsep
  rfl

/-- In front of the arguments of a call there is an argument, or the end of the call. -/
theorem Reads.settled_arguments (h : Reads forms .arguments input ns rest)
    (hlex : ∀ t ∈ input, t.Lexical) (hrest : Settled rest) : Settled input := by
  cases h with
  | noArgument => exact hrest
  | argument _ harg _ => exact (harg.settled rfl nofun hlex).1

/-- Behind a statement there is a separator, another statement, or the end. -/
theorem Reads.settled_statements (h : Reads forms .statements input ns rest)
    (hlex : ∀ t ∈ input, t.Lexical) : Settled input := by
  cases h with
  | @newline t ts _ _ ht _ =>
    have hends : EndsExpression (t :: ts) :=
      endsExpression_newline (hlex t List.mem_cons_self) ht
    exact hends.settled
  | noStatement _ hend =>
    cases input with
    | nil => exact ⟨rfl, rfl, rfl⟩
    | cons t ts =>
      have htext : t.text = "\x7d" := by simpa [opensStatement] using hend
      have hends : EndsStatements (t :: ts) :=
        endsStatements_brace (hlex t List.mem_cons_self) htext
      exact hends.settled
  | statement _ _ hn _ => exact (hn.settled rfl nofun hlex).1

theorem Reads.settled_afterStatement (h : Reads forms .afterStatement input ns rest)
    (hlex : ∀ t ∈ input, t.Lexical) : Settled input := by
  cases h with
  | @semicolon t ts _ _ ht _ =>
    have hends : EndsExpression (t :: ts) :=
      endsExpression_mark (c := ';') (hlex t List.mem_cons_self) ht (by decide)
    exact hends.settled
  | noSemicolon _ h => exact h.settled_statements hlex

theorem Reads.settledBehindComma_properties {base : Node}
    (h : Reads forms (.properties base) input ns rest) (hrest : SettledBehindComma rest) :
    SettledBehindComma input := by
  cases h with
  | noProperty => exact hrest
  | property ht => exact settledBehindComma_cons (by simp [ht])

theorem Reads.settledBehindComma_operands {lhs : Node}
    (h : Reads forms (.operands lhs) input ns rest) (hlex : ∀ t ∈ input, t.Lexical)
    (hrest : SettledBehindComma rest) : SettledBehindComma input := by
  cases h with
  | noOperand => exact hrest
  | operand hop =>
    refine settledBehindComma_cons fun htext => ?_
    have hkind := (hlex _ List.mem_cons_self).kind_of_text (c := ',') rfl htext
    cases hop.symm.trans hkind

theorem Reads.settledBehindComma_afterArgument (h : Reads forms .afterArgument input ns rest)
    (hlex : ∀ t ∈ input, t.Lexical) (hrest : Settled rest) : SettledBehindComma input := by
  cases h with
  | comma _ h =>
    rintro _ _ ⟨⟩ _
    exact h.settled_arguments (List.forall_mem_cons.1 hlex).2 hrest
  | noComma hcomma _ =>
    rintro t us rfl htext
    exact absurd htext (by simpa using hcomma)

/-! ## Reading -/

/-- Whether a phrase stands at the beginning of a line. -/
def Phrase.beginsLine : Phrase → Bool
  | statements => true
  | _ => false

/-- What has to be known about the tokens behind a phrase, so that it ends where it did. -/
def Phrase.Followed (rest : List Token) : Phrase → Prop
  | statements | afterStatement => True
  | arguments | afterArgument | intermediate | expression => Settled rest
  | _ => SettledBehindComma rest

/-- A token that makes a leaf is no mark and no line end. -/
theorem kind_ne_of_leaf? {form : ValueForm} {n : Node} (hform : form.leads t = true)
    (hleaf : form.leaf? t = some n) : t.kind ≠ .punctuation ∧ t.kind ≠ .newline := by
  cases form with
  | parens | block | quoted | unquote => cases hleaf
  | identifier | integer | float | string =>
    rw [Token.hasKind_eq_true.1 hform]
    decide

/-- `Respaces forms phrase input ns rest`: the phrase is read from the input with other separators
as well, and leaves what it left, with other separators. -/
def Respaces (forms : List ValueForm) (phrase : Phrase) (input : List Token) (ns : List Node)
    (rest : List Token) : Prop :=
  ∀ ⦃us : List Token⦄, (∀ t ∈ input, t.Lexical) → phrase.Followed rest →
    Respaced phrase.beginsLine input us →
    ∃ rest', Respaced false rest rest' ∧ Reads forms phrase us ns rest'

/-- The tokens in front of `ts` stay, and no line begins behind them. -/
def Stays (front ts : List Token) : Prop :=
  ∀ ⦃us : List Token⦄, Respaced false (front ++ ts) us →
    ∃ us', us = front ++ us' ∧ Respaced false ts us'

theorem Stays.nil (ts : List Token) : Stays [] ts :=
  fun us hus => ⟨us, rfl, hus⟩

theorem Stays.of_kind (hlex : t.Lexical) (hpunct : t.kind ≠ .punctuation)
    (hline : t.kind ≠ .newline) (ts : List Token) : Stays [t] ts :=
  fun _ hus => hus.of_kind hlex hpunct hline

theorem Stays.of_point (hlex : t.Lexical) (ht : t.text = ".") (ts : List Token) : Stays [t] ts :=
  fun _ hus => hus.of_mark (c := '.') hlex rfl (by decide) (by decide) ht

theorem Stays.append {front more : List Token} (h : Stays front (more ++ ts))
    (hmore : Stays more ts) : Stays (front ++ more) ts := by
  intro us hus
  rw [List.append_assoc] at hus
  obtain ⟨us', rfl, hus'⟩ := h hus
  obtain ⟨us'', rfl, hus''⟩ := hmore hus'
  exact ⟨us'', (List.append_assoc ..).symm, hus''⟩

namespace Respaces

variable {phrase' : Phrase} {mid : List Token} {ns' : List Node}

/-- A phrase behind tokens that stay. -/
theorem behind (front : List Token) (h : Respaces forms phrase ts ns rest)
    (hline : phrase.beginsLine = false) (hline' : phrase'.beginsLine = false)
    (hfront : (∀ t ∈ front, t.Lexical) → Stays front ts)
    (hfollowed : phrase'.Followed rest → phrase.Followed rest)
    (hread : ∀ us rest', Reads forms phrase us ns rest' →
      Reads forms phrase' (front ++ us) ns' rest') :
    Respaces forms phrase' (front ++ ts) ns' rest := by
  intro us hlex hrest hus
  obtain ⟨hfrontlex, hlex⟩ := List.forall_mem_append.1 hlex
  rw [hline'] at hus
  obtain ⟨us', rfl, hus'⟩ := hfront hfrontlex hus
  rw [← hline] at hus'
  obtain ⟨rest', hrest', h'⟩ := h hlex (hfollowed hrest) hus'
  exact ⟨rest', hrest', hread _ _ h'⟩

/-- A phrase between two marks, of which the first is a brace just if the phrase begins a line. -/
theorem enclosed {c d : Char} (h : Respaces forms phrase ts ns (u :: rest))
    (hu : u ∈ ts) (hline : phrase.beginsLine = decide (c = '\x7b'))
    (hline' : phrase'.beginsLine = false) (htc : t.text = String.ofList [c])
    (hc : Token.isPunctuation c = true ∧ c ≠ ';' ∧ c ≠ ',') (hud : u.text = String.ofList [d])
    (hd : Token.isPunctuation d = true ∧ d ≠ ';' ∧ d ≠ ',' ∧ d ≠ '\x7b')
    (hfollowed : u.Lexical → phrase.Followed (u :: rest))
    (hread : ∀ us rest', Reads forms phrase us ns (u :: rest') →
      Reads forms phrase' (t :: us) ns' rest') :
    Respaces forms phrase' (t :: ts) ns' rest := by
  intro us hlex _ hus
  obtain ⟨htlex, hlex⟩ := List.forall_mem_cons.1 hlex
  rw [hline'] at hus
  obtain ⟨us', rfl, hus'⟩ := hus.of_mark htlex hc.1 hc.2.1 hc.2.2 htc
  obtain ⟨mid, hmid, h'⟩ := h hlex (hfollowed (hlex u hu)) (hline ▸ hus')
  obtain ⟨rest', rfl, hrest'⟩ := hmid.of_mark (hlex u hu) hd.1 hd.2.1 hd.2.2.1 hud
  rw [decide_eq_false hd.2.2.2] at hrest'
  exact ⟨rest', hrest', hread _ _ h'⟩

/-- A loop behind a part that is read before, and perhaps behind tokens that stay. -/
theorem after {part loop : Phrase} {n : Node} (front : List Token)
    (h : Respaces forms loop mid ns rest) (hpart : Reads forms part input [n] mid)
    (ihpart : Respaces forms part input [n] mid)
    (hlines : part.beginsLine = false ∧ loop.beginsLine = false ∧ phrase'.beginsLine = false)
    (hfront : (∀ t ∈ front, t.Lexical) → Stays front input)
    (hfollowed : (∀ t ∈ mid, t.Lexical) → phrase'.Followed rest →
      part.Followed mid ∧ loop.Followed rest)
    (hread : ∀ us mid' rest', (∀ t ∈ input, t.Lexical) → phrase'.Followed rest →
      Respaced false input us → Respaced false mid mid' → Reads forms part us [n] mid' →
      Reads forms loop mid' ns rest' → Reads forms phrase' (front ++ us) ns' rest') :
    Respaces forms phrase' (front ++ input) ns' rest := by
  intro us hlex hrest hus
  obtain ⟨hpartline, hloopline, hline⟩ := hlines
  obtain ⟨hfrontlex, hlex⟩ := List.forall_mem_append.1 hlex
  have hmidlex : ∀ t ∈ mid, t.Lexical := fun t ht => hlex t (hpart.suffix.subset ht)
  obtain ⟨hpartend, hloopend⟩ := hfollowed hmidlex hrest
  rw [hline] at hus
  obtain ⟨us', rfl, hus'⟩ := hfront hfrontlex hus
  obtain ⟨mid', hmid', hpart'⟩ := ihpart hlex hpartend (hpartline ▸ hus')
  obtain ⟨rest', hrest', h'⟩ := h hmidlex hloopend (hloopline ▸ hmid')
  exact ⟨rest', hrest', hread _ _ _ hlex hrest hus' hmid' hpart' h'⟩

end Respaces

/-- **What is read from tokens of a source is read from them with other separators as well**, and
leaves what it left, with other separators. -/
theorem Reads.respaces (h : Reads forms phrase input ns rest) :
    Respaces forms phrase input ns rest := by
  induction h with
  | @leaf t ts form n hform hleaf =>
    intro us hlex _ hus
    have hkind := kind_ne_of_leaf? (leads_of_formAt hform) hleaf
    obtain ⟨us', rfl, hus'⟩ := hus.of_kind (hlex t List.mem_cons_self) hkind.1 hkind.2
    exact ⟨us', hus', .leaf hform hleaf⟩
  | group hform h ih =>
    intro us hlex hrest hus
    obtain ⟨rest', hrest', h'⟩ := ih hlex hrest hus
    have hhead := ((Reads.group hform h).settled rfl nofun hlex).2 us hus
    exact ⟨rest', hrest', .group ((nextForm_of_head? hhead forms).trans hform) h'⟩
  | @block t u ts rest ns hform h hu ih =>
    have ht := Token.hasText_eq_true.1 (leads_of_formAt hform)
    exact ih.enclosed (c := '\x7b') (d := '\x7d') (h.suffix.subset List.mem_cons_self) rfl rfl ht
      (by decide) hu (by decide) (fun _ => trivial) fun _ _ h' => .block hform h' hu
  | @quoted t ts rest n hform h ih =>
    have hk : t.kind = .quote := Token.hasKind_eq_true.1 (leads_of_formAt hform)
    refine ih.behind [t] rfl rfl (fun hlex => ?_) id fun _ _ h' => .quoted hform h'
    exact .of_kind (hlex t List.mem_cons_self) (by simp [hk]) (by simp [hk]) ts
  | @unquote t ts rest n hform h ih =>
    have hk : t.kind = .unquote := Token.hasKind_eq_true.1 (leads_of_formAt hform)
    refine ih.behind [t] rfl rfl (fun hlex => ?_) id fun _ _ h' => .unquote hform h'
    exact .of_kind (hlex t List.mem_cons_self) (by simp [hk]) (by simp [hk]) ts
  | @parens t u ts rest n ht h hu ih =>
    refine ih.enclosed (c := '(') (d := ')') (h.suffix.subset List.mem_cons_self) rfl rfl ht
      (by decide) hu (by decide) (fun hulex => ?_) fun _ _ h' => .parens ht h' hu
    have hends : EndsExpression (u :: rest) := endsExpression_mark (c := ')') hulex hu (by decide)
    exact hends.settled
  | noProperty hdot =>
    intro us _ hrest hus
    refine ⟨us, hus, .noProperty (hus.begins_behindComma hrest ?_ (fun _ h => h.point) hdot)⟩
    exact fun u hu => hu.hasText (by decide)
  | @property base t u ts rest ns ht hu h ih =>
    refine ih.behind [t, u] rfl rfl (fun hlex => ?_) id
      fun _ _ h' => .property ht hu h'
    obtain ⟨htlex, hlex⟩ := List.forall_mem_cons.1 hlex
    have hname := Stays.of_kind (hlex u List.mem_cons_self) (by simp [hu]) (by simp [hu]) ts
    exact (Stays.of_point htlex ht ([u] ++ ts)).append hname
  | @propertyOrValue input mid rest base ns hbase h ihb ih =>
    exact ih.after [] hbase ihb ⟨rfl, rfl, rfl⟩ (fun _ => .nil input)
      (fun _ hrest => ⟨h.settledBehindComma_properties hrest, hrest⟩)
      fun _ _ _ _ _ _ _ hbase' h' => .propertyOrValue hbase' h'
  | noOperand hop =>
    intro us _ hrest hus
    refine ⟨us, hus, .noOperand (hus.begins_behindComma hrest ?_ (fun _ h => h.operator) hop)⟩
    exact fun u hu => hu.hasKind (by decide)
  | @operand lhs rhs op ts mid rest ns hop hrhs h ihr ih =>
    refine ih.after [op] hrhs ihr ⟨rfl, rfl, rfl⟩ (fun hlex => ?_)
      (fun hlex hrest => ⟨h.settledBehindComma_operands hlex hrest, hrest⟩)
      fun _ _ _ _ _ _ _ hrhs' h' => .operand hop hrhs' h'
    exact .of_kind (hlex op List.mem_cons_self) (by simp [hop]) (by simp [hop]) ts
  | @chain input mid rest first ns hfirst h ihf ih =>
    exact ih.after [] hfirst ihf ⟨rfl, rfl, rfl⟩ (fun _ => .nil input)
      (fun hlex hrest => ⟨h.settledBehindComma_operands hlex hrest, hrest⟩)
      fun _ _ _ _ _ _ _ hfirst' h' => .chain hfirst' h'
  | noArgument hend =>
    intro us _ hrest hus
    refine ⟨us, hus, .noArgument (hus.begins_eq_false ?_ hrest.comma hend)⟩
    exact fun u hu => hu.endsCall
  | @argument input mid rest arg args hmore harg h iha ih =>
    refine ih.after [] harg iha ⟨rfl, rfl, rfl⟩ (fun _ => .nil input)
      (fun hlex hrest => ⟨h.settledBehindComma_afterArgument hlex hrest, hrest⟩)
      fun us _ _ hlex _ hus _ harg' h' => ?_
    have hhead := (harg.settled rfl nofun hlex).2 us hus
    exact .argument ((begins_of_head? hhead _).trans hmore) harg' h'
  | @comma t ts rest args ht h ih =>
    intro us hlex hrest hus
    obtain ⟨htlex, hlex⟩ := List.forall_mem_cons.1 hlex
    rcases hus.of_comma htlex ht with hus' | ⟨us', rfl, hus'⟩
    · obtain ⟨rest', hrest', h'⟩ := ih hlex hrest hus'
      have hcomma := (h.settled_arguments hlex hrest).comma
      refine ⟨rest', hrest', .noComma (hus'.begins_eq_false ?_ hcomma hcomma) h'⟩
      exact fun u hu => hu.hasText (by decide)
    · obtain ⟨rest', hrest', h'⟩ := ih hlex hrest hus'
      exact ⟨rest', hrest', .comma ht h'⟩
  | noComma hcomma h ih =>
    intro us hlex hrest hus
    obtain ⟨rest', hrest', h'⟩ := ih hlex hrest hus
    refine ⟨rest', hrest', .noComma (hus.begins_eq_false ?_ hcomma hcomma) h'⟩
    exact fun u hu => hu.hasText (by decide)
  | @operation input mid rest first ns hfirst hop h ihf ih =>
    refine ih.after [] hfirst ihf ⟨rfl, rfl, rfl⟩ (fun _ => .nil input)
      (fun hlex hrest => ⟨h.settledBehindComma_operands hlex hrest.behindComma, hrest.behindComma⟩)
      fun _ _ _ hlex _ _ hmid' hfirst' h' => .operation hfirst' ?_ h'
    obtain ⟨op, mid, rfl, hk⟩ := exists_cons_of_begins hop
    have hoplex : op.Lexical := hlex op (hfirst.suffix.subset List.mem_cons_self)
    have hk := Token.hasKind_eq_true.1 hk
    obtain ⟨mid'', rfl, -⟩ := hmid'.of_kind hoplex (by simp [hk]) (by simp [hk])
    exact hop
  | @call input mid rest first args hfirst hop h ihf ih =>
    refine ih.after [] hfirst ihf ⟨rfl, rfl, rfl⟩ (fun _ => .nil input)
      (fun hlex hrest => ⟨(h.settled_arguments hlex hrest).behindComma, hrest⟩)
      fun _ _ _ hlex hrest _ hmid' hfirst' h' => .call hfirst' ?_ h'
    have hmid := h.settled_arguments (fun t ht => hlex t (hfirst.suffix.subset ht)) hrest
    exact hmid'.begins_eq_false (fun u hu => hu.hasKind (by decide)) hmid.comma hop
  | plain h hop ih =>
    intro us hlex hrest hus
    obtain ⟨rest', hrest', h'⟩ := ih hlex hrest hus
    refine ⟨rest', hrest', .plain h' (hrest'.begins_eq_false ?_ hrest.comma hop)⟩
    exact fun u hu => hu.hasKind (by decide)
  | @nested input mid rest lhs rhs op hlhs hop h ihl ih =>
    intro us hlex hrest hus
    have hmidlex : ∀ t ∈ op :: mid, t.Lexical := fun t ht => hlex t (hlhs.suffix.subset ht)
    obtain ⟨hoplex, hmidlex⟩ := List.forall_mem_cons.1 hmidlex
    have hends : Ends (op :: mid) := ends_rightOperator hoplex hop
    obtain ⟨mid', hmid', hlhs'⟩ := ihl hlex hends.settled hus
    obtain ⟨mid'', rfl, hmid''⟩ := hmid'.of_kind hoplex (by simp [hop]) (by simp [hop])
    obtain ⟨rest', hrest', h'⟩ := ih hmidlex hrest hmid''
    exact ⟨rest', hrest', .nested hlhs' hop h'⟩
  | @newline t ts rest ns ht h ih =>
    intro us hlex hrest hus
    obtain ⟨htlex, hlex⟩ := List.forall_mem_cons.1 hlex
    obtain ⟨lines, us', rfl, hlines, hus'⟩ := hus.of_line (isLineEnd_of_lexical htlex ht)
    obtain ⟨rest', hrest', h'⟩ := ih hlex trivial hus'
    exact ⟨rest', hrest', reads_newlines hlines h'⟩
  | @noStatement input hline hend =>
    intro us hlex _ hus
    obtain ⟨lines, us', rfl, hlines, hus'⟩ := hus.exists_lines
    cases input with
    | nil =>
      refine ⟨[], .nil, ?_⟩
      have hall := List.forall_mem_append.2 ⟨hlines, hus'.kind_of_nil⟩
      have hread : Reads forms .statements [] [] [] := .noStatement rfl rfl
      simpa using reads_newlines hall hread
    | cons t ts =>
      have htext : t.text = "\x7d" := by simpa [opensStatement] using hend
      obtain ⟨us'', rfl, hus''⟩ := hus'.of_mark (c := '\x7d') (hlex t List.mem_cons_self) rfl
        (by decide) (by decide) htext
      exact ⟨t :: us'', hus', reads_newlines hlines (.noStatement hline hend)⟩
  | @statement input mid rest n ns hline hmore hn h ihn ih =>
    intro us hlex hrest hus
    obtain ⟨lines, us', rfl, hlines, hus'⟩ := hus.exists_lines
    have hmidlex : ∀ t ∈ mid, t.Lexical := fun t ht => hlex t (hn.suffix.subset ht)
    obtain ⟨mid', hmid', hn'⟩ := ihn hlex (h.settled_afterStatement hmidlex) hus'
    obtain ⟨rest', hrest', h'⟩ := ih hmidlex trivial hmid'
    have hhead := (hn.settled rfl nofun hlex).2 us' hus'
    refine ⟨rest', hrest', reads_newlines hlines (.statement ?_ ?_ hn' h')⟩
    · exact (begins_of_head? hhead _).trans hline
    · exact (begins_of_head? hhead _).trans hmore
  | @semicolon t ts rest ns ht h ih =>
    intro us hlex _ hus
    obtain ⟨htlex, hlex⟩ := List.forall_mem_cons.1 hlex
    obtain ⟨u, us', rfl, hus', hu⟩ := hus.of_semicolon htlex ht
    obtain ⟨rest', hrest', h'⟩ := ih hlex trivial hus'
    rcases hu with rfl | hu
    · exact ⟨rest', hrest', .semicolon ht h'⟩
    · exact ⟨rest', hrest', .noSemicolon (hu.hasText (by decide)) (.newline hu.kind h')⟩
  | noSemicolon hsemi h ih =>
    intro us hlex _ hus
    obtain ⟨rest', hrest', h'⟩ := ih hlex trivial (hus.mono _)
    have hcomma := (h.settled_statements hlex).comma
    refine ⟨rest', hrest', .noSemicolon (hus.begins_eq_false ?_ hcomma hsemi) h'⟩
    exact fun u hu => hu.hasText (by decide)

/-! ## Programs -/

/-- Statements up to the end are read up to the end with other separators as well. -/
theorem Reads.respaced_nil (h : Reads forms .statements ts ns []) (hlex : ∀ t ∈ ts, t.Lexical)
    (hus : Respaced true ts us) : Reads forms .statements us ns [] := by
  obtain ⟨rest', hrest', h'⟩ := h.respaces hlex trivial hus
  cases rest' with
  | nil => exact h'
  | cons t rest' =>
    have hline := h'.begins_newline (.inl rfl)
    simp [hrest'.kind_of_nil t List.mem_cons_self] at hline

/-- What a mode takes from the front of some tokens is a tree of theirs. -/
theorem Mode.Takes.exists_state {settings : Settings} {mode : Mode} {node : Node}
    (h : mode.Takes settings.forms ts rest node) (hsuffix : rest <:+ ts) :
    ∃ s, parseTokens settings mode ts = .ok node s := by
  obtain ⟨pre, rfl⟩ := hsuffix
  have hsucceeds : Succeeds settings mode (pre ++ rest) node pre.length := by
    rw [succeeds_iff, List.drop_left, List.length_append]
    exact ⟨Nat.le_add_right _ _, h⟩
  obtain ⟨s, hs, -⟩ := hsucceeds
  exact ⟨s, hs⟩

/-- **Separators are transparent.**  If the tokens of a source are accepted as a program, or as a
sequence of statements, then so are the same tokens without some of the commas, with line ends in
place of some of the semicolons, and with further line ends beside line ends, behind semicolons and
opening braces, at the beginning and at the end.  The tree is the same, with all its starts. -/
theorem separators_are_transparent {source : String} {ts us : List Token}
    (htokens : Token.tokenize source = .ok ts) (hus : Respaced true ts us) {settings : Settings}
    {mode : Mode} (hmode : mode = .program ∨ mode = .expressions) {node : Node} {s : State}
    (h : parseTokens settings mode ts = .ok node s) :
    ∃ s', parseTokens settings mode us = .ok node s' := by
  have hlex := Token.lexical_of_tokenize htokens
  obtain ⟨-, htakes⟩ := succeeds_iff.1 ⟨s, h, rfl⟩
  rcases hmode with rfl | rfl
  · obtain ⟨-, ns, rfl, hread⟩ := htakes
    have htakes' : Mode.program.Takes settings.forms us [] (.branch .program ns none) :=
      ⟨rfl, ns, rfl, hread.respaced_nil hlex hus⟩
    exact htakes'.exists_state List.nil_suffix
  · obtain ⟨ns, rfl, hread⟩ := htakes
    obtain ⟨rest', -, hread'⟩ := hread.respaces hlex trivial hus
    have htakes' : Mode.expressions.Takes settings.forms us rest' (.branch .expressions ns none) :=
      ⟨ns, rfl, hread'⟩
    exact htakes'.exists_state hread'.suffix

/-- A comma between arguments, one behind the last argument, a semicolon in a block and a line end:
both commas are deleted, the semicolon becomes a line end, and line ends are inserted in all places
where they may be. -/
theorem separators_are_transparent_block :
    let line (pos : Int) : Token := ⟨.newline, "\n", pos⟩
    let ts : List Token := [⟨.punctuation, "\x7b", 0⟩, ⟨.ident, "f", 1⟩, ⟨.ident, "a", 3⟩,
      ⟨.punctuation, ",", 4⟩, ⟨.ident, "b", 6⟩, ⟨.punctuation, ",", 7⟩, ⟨.punctuation, ";", 8⟩,
      ⟨.ident, "c", 10⟩, ⟨.punctuation, "\x7d", 11⟩, line 12]
    let us : List Token := [line 0, ⟨.punctuation, "\x7b", 0⟩, line 1, ⟨.ident, "f", 1⟩,
      ⟨.ident, "a", 3⟩, ⟨.ident, "b", 6⟩, line 8, line 9, ⟨.ident, "c", 10⟩,
      ⟨.punctuation, "\x7d", 11⟩, line 12, line 13]
    Token.tokenize "\x7bf a, b,; c\x7d\n" = .ok ts ∧ Respaced true ts us ∧
      ∃ node s s', parseTokens .standard .program ts = .ok node s ∧
        parseTokens .standard .program us = .ok node s' := by
  intro line ts us
  have hline (pos : Int) : IsLineEnd (line pos) :=
    ⟨rfl, show "\n" ∉ signs by decide⟩
  have htokens : Token.tokenize "\x7bf a, b,; c\x7d\n" = .ok ts := by decide +kernel
  have hus : Respaced true ts us :=
    .insert (.inl rfl) (hline 0) <| .keep <| .insert (.inl rfl) (hline 1) <| .keep <| .keep <|
      .comma rfl <| .keep <| .comma rfl <| .semicolon rfl (hline 8) <|
      .insert (.inl rfl) (hline 9) <| .keep <| .keep <| .keep <|
      .insert (.inl rfl) (hline 13) .nil
  have hok : (parse .program "\x7bf a, b,; c\x7d\n").toOption.isSome = true := by decide +kernel
  rw [parse, parseSource, htokens] at hok
  dsimp only at hok
  cases hparse : parseTokens .standard .program ts with
  | ok node s =>
    obtain ⟨s', hs'⟩ := separators_are_transparent htokens hus (.inl rfl) hparse
    exact ⟨htokens, hus, node, s, s', rfl, hs'⟩
  | error e s =>
    rw [hparse] at hok
    cases hok

end Juxta.Parser
