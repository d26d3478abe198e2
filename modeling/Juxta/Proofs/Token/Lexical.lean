import Juxta.Token.Lexer

/-!
# What tokens look like

A token that was cut from a source is a lexeme of its class.  The class therefore says much about
the text, and the text about the class: the parser, which asks for one or the other as it goes, is
never misled by a token that was cut from a source.

## What is here

* `Cuts pos cs pieces` — the scan of `cs` succeeds with these pieces.
* `Kind.leads` — the characters with which the lexemes of a class begin.
* `Lexical` — a token that some text makes the lexer cut, wherever it stands.
* `lexical_of_tokenize` — all tokens of a source are such tokens.
* `Lexical.kind_of_text` — the text of a punctuation mark is that of no other class; further laws
  say what the class of a token says about its text.
-/

set_option autoImplicit false
namespace Juxta.Token

variable {cs lexeme : List Char} {k : Kind} {pos : Nat} {pieces : List Token} {t : Token}

/-! ## Scans that succeed -/

/-- The text `cs`, which starts at offset `pos`, is cut into these pieces. -/
inductive Cuts : Nat → List Char → List Token → Prop
  | nil {pos : Nat} : Cuts pos [] []
  | cons {pos : Nat} {cs lexeme : List Char} {k : Kind} {pieces : List Token}
      (hfirst : firstLexeme cs = some (k, lexeme))
      (hrest : Cuts (pos + lexeme.length) (cs.drop lexeme.length) pieces) :
      Cuts pos cs (⟨k, String.ofList lexeme, pos⟩ :: pieces)

/-- A scan that is not stuck has cut its text. -/
theorem cuts_of_scan (h : (scan pos cs).stuck = none) : Cuts pos cs (scan pos cs).pieces := by
  induction hn : cs.length using Nat.strongRecOn generalizing pos cs with
  | ind n ih =>
    cases hfirst : firstLexeme cs with
    | none =>
      by_cases hcs : cs = []
      · subst hcs
        exact .nil
      · rw [scan_of_firstLexeme_eq_none hcs hfirst] at h
        exact absurd h (by simp)
    | some found =>
      obtain ⟨k, lexeme⟩ := found
      have hlexeme := List.length_pos_iff.2 (ne_nil_of_firstLexeme hfirst)
      have hcs : cs.length ≠ 0 := by
        intro hzero
        rw [List.length_eq_zero_iff.1 hzero, firstLexeme_nil] at hfirst
        cases hfirst
      rw [scan_of_firstLexeme_eq_some hfirst] at h ⊢
      refine .cons hfirst (ih _ ?_ h rfl)
      rw [List.length_drop]
      omega

/-- A text that can be cut is cut so by the scan. -/
theorem Cuts.scan_eq (h : Cuts pos cs pieces) : scan pos cs = ⟨pieces, none⟩ := by
  induction h with
  | nil => exact scan_nil _
  | cons hfirst _ ih => rw [scan_of_firstLexeme_eq_some hfirst, ih]

/-- The tokens of a source are the pieces that are kept. -/
theorem cuts_of_tokenizeWith {comments : Bool} {source : String} {tokens : List Token}
    (h : tokenizeWith comments source = .ok tokens) :
    ∃ pieces, Cuts 0 source.toList pieces ∧ tokens = pieces.filter (·.kind.isKept comments) := by
  rw [tokenizeWith] at h
  cases hstuck : (scan 0 source.toList).stuck with
  | some offset =>
    simp only [hstuck] at h
    cases h
  | none =>
    simp only [hstuck, Except.ok.injEq] at h
    exact ⟨_, cuts_of_scan hstuck, h.symm⟩

theorem cuts_of_tokenize {source : String} {tokens : List Token}
    (h : tokenize source = .ok tokens) :
    ∃ pieces, Cuts 0 source.toList pieces ∧ tokens = pieces.filter (·.kind.isKept false) :=
  cuts_of_tokenizeWith h

/-! ## Lexemes -/

/-- The class that applies first takes its own lexeme. -/
theorem lexeme_of_firstLexeme (h : firstLexeme cs = some (k, lexeme)) : k.lexeme cs = lexeme := by
  obtain ⟨k', -, h'⟩ := List.exists_of_findSome?_eq_some h
  split at h'
  · exact absurd h' (by simp)
  · simp only [Option.some.injEq, Prod.mk.injEq] at h'
    obtain ⟨rfl, h'⟩ := h'
    exact h'

/-- The characters with which the lexemes of a class begin. -/
def Kind.leads : Kind → Char → Bool
  | .float | .integer => Char.isDigit
  | .string => (· = '"')
  | .rightOperator | .quote => (· = ':')
  | .unquote => (· = '$')
  | .leftOperator => isOperatorChar
  | .punctuation => isPunctuation
  | .ident => isIdentStart
  | .newline => (· = '\n')
  | .comment => (· = '#')
  | .whitespace => isSpace

theorem all_of_takeWhile {p : Char → Bool} {l : List Char} (h : cs.takeWhile p = l) :
    ∀ c ∈ l, p c = true := by
  subst h
  exact List.all_eq_true.1 List.all_takeWhile

theorem head_of_runLexeme {first others : Char → Bool} {c : Char} {l : List Char}
    (h : runLexeme first others cs = c :: l) : first c = true ∧ ∀ d ∈ l, others d = true := by
  cases cs with
  | nil => cases h
  | cons d ds =>
    rw [runLexeme] at h
    split at h
    · next hd =>
      obtain ⟨rfl, hl⟩ := List.cons.inj h
      exact ⟨hd, all_of_takeWhile hl⟩
    · cases h

theorem head_of_charLexeme {p : Char → Bool} {c : Char} {l : List Char}
    (h : charLexeme p cs = c :: l) : p c = true ∧ l = [] := by
  cases cs with
  | nil => cases h
  | cons d ds =>
    rw [charLexeme] at h
    split at h
    · next hd =>
      obtain ⟨rfl, hl⟩ := List.cons.inj h
      exact ⟨hd, hl.symm⟩
    · cases h

/-- The parts of the lexeme of a floating-point number. -/
theorem parts_of_floatLexeme {l : List Char} (h : floatLexeme cs = l) (hl : l ≠ []) :
    ∃ whole places, l = whole ++ '.' :: places ∧ whole ≠ [] ∧
      (∀ c ∈ whole, c.isDigit = true) ∧ (∀ c ∈ places, c.isDigit = true) := by
  rw [floatLexeme] at h
  split at h
  · simp only at h
    split at h
    · exact absurd h.symm hl
    · next hparts =>
      simp only [Bool.or_eq_true, List.isEmpty_iff, not_or] at hparts
      exact ⟨_, _, h.symm, hparts.1, all_of_takeWhile rfl, all_of_takeWhile rfl⟩
  · exact absurd h.symm hl

/-- The lexemes of a class begin with a character that leads the class. -/
theorem Kind.leads_of_lexeme {c : Char} {l : List Char} (h : k.lexeme cs = c :: l) :
    k.leads c = true := by
  cases k with
  | float =>
    obtain ⟨whole, places, hl, hne, hwhole, -⟩ := parts_of_floatLexeme h (List.cons_ne_nil _ _)
    cases whole with
    | nil => exact absurd rfl hne
    | cons d ds =>
      obtain ⟨rfl, -⟩ := List.cons.inj hl
      exact hwhole c List.mem_cons_self
  | integer | leftOperator | whitespace => exact all_of_takeWhile h c List.mem_cons_self
  | string =>
    simp only [Kind.lexeme, stringLexeme] at h
    grind [Kind.leads]
  | rightOperator =>
    simp only [Kind.lexeme, rightOperatorLexeme] at h
    grind [Kind.leads]
  | unquote =>
    simp only [Kind.lexeme, unquoteLexeme] at h
    grind [Kind.leads]
  | quote | punctuation => exact (head_of_charLexeme h).1
  | ident | newline | comment => exact (head_of_runLexeme h).1

/-! ## Tokens that are cut from a text -/

/-- A token that some text makes the lexer cut, wherever it stands. -/
def Lexical (t : Token) : Prop :=
  ∃ cs, firstLexeme cs = some (t.kind, t.text.toList)

theorem Cuts.lexical (h : Cuts pos cs pieces) : ∀ t ∈ pieces, t.Lexical := by
  induction h with
  | nil => exact fun t ht => absurd ht List.not_mem_nil
  | @cons pos cs lexeme k pieces hfirst _ ih =>
    intro t ht
    rcases List.mem_cons.1 ht with rfl | ht
    · exact ⟨cs, by rw [hfirst, String.toList_ofList]⟩
    · exact ih t ht

/-- All tokens of a source were cut from it. -/
theorem lexical_of_tokenize {source : String} {tokens : List Token}
    (h : tokenize source = .ok tokens) : ∀ t ∈ tokens, t.Lexical := by
  obtain ⟨pieces, hcuts, rfl⟩ := cuts_of_tokenize h
  exact fun t ht => hcuts.lexical t (List.mem_filter.1 ht).1

namespace Lexical

/-- The text of a token is not empty, and begins with a character that leads its class. -/
theorem exists_cons (h : t.Lexical) : ∃ c l, t.text.toList = c :: l ∧ t.kind.leads c = true := by
  obtain ⟨cs, h⟩ := h
  obtain ⟨c, l, hcl⟩ := List.exists_cons_of_ne_nil (ne_nil_of_firstLexeme h)
  exact ⟨c, l, hcl, Kind.leads_of_lexeme (hcl ▸ lexeme_of_firstLexeme h)⟩

theorem leads_of_text {c : Char} {l : List Char} (h : t.Lexical)
    (htext : t.text = String.ofList (c :: l)) : t.kind.leads c = true := by
  obtain ⟨d, m, hdm, hlead⟩ := h.exists_cons
  rw [htext, String.toList_ofList] at hdm
  rw [(List.cons.inj hdm).1]
  exact hlead

/-- Punctuation marks are recognised by their text. -/
theorem kind_of_text {c : Char} (h : t.Lexical) (hc : isPunctuation c = true)
    (htext : t.text = String.ofList [c]) : t.kind = .punctuation := by
  have hmem := List.contains_iff_mem.1 hc
  simp only [List.mem_cons, List.not_mem_nil, or_false] at hmem
  have hall : ∀ k ∈ Kind.all, k.leads c = true → k = .punctuation := by
    rcases hmem with rfl | rfl | rfl | rfl | rfl | rfl | rfl | rfl | rfl <;> decide
  exact hall t.kind (Kind.mem_all _) (h.leads_of_text htext)

/-- The text of a token is a lexeme of its class. -/
theorem exists_lexeme (h : t.Lexical) (hk : t.kind = k) :
    ∃ cs, k.lexeme cs = t.text.toList ∧ t.text.toList ≠ [] := by
  obtain ⟨cs, h⟩ := h
  exact ⟨cs, hk ▸ lexeme_of_firstLexeme h, ne_nil_of_firstLexeme h⟩

theorem text_ne_nil (h : t.Lexical) : t.text.toList ≠ [] := by
  obtain ⟨cs, -, hne⟩ := h.exists_lexeme rfl
  exact hne

theorem text_of_quote (h : t.Lexical) (hk : t.kind = .quote) : t.text = ":" := by
  obtain ⟨cs, hcs, hne⟩ := h.exists_lexeme hk
  obtain ⟨c, l, hcl⟩ := List.exists_cons_of_ne_nil hne
  obtain ⟨hc, rfl⟩ := head_of_charLexeme (hcs.trans hcl)
  obtain rfl : c = ':' := by simpa using hc
  exact String.toList_inj.1 hcl

theorem text_of_unquote (h : t.Lexical) (hk : t.kind = .unquote) : t.text = "$" := by
  obtain ⟨cs, hcs, hne⟩ := h.exists_lexeme hk
  simp only [Kind.lexeme, unquoteLexeme] at hcs
  split at hcs
  · exact String.toList_inj.1 hcs.symm
  · exact absurd hcs.symm hne

theorem text_of_rightOperator (h : t.Lexical) (hk : t.kind = .rightOperator) :
    t.text = ":=" ∨ t.text = "::" := by
  obtain ⟨cs, hcs, hne⟩ := h.exists_lexeme hk
  simp only [Kind.lexeme, rightOperatorLexeme] at hcs
  split at hcs
  · exact .inl (String.toList_inj.1 hcs.symm)
  · exact .inr (String.toList_inj.1 hcs.symm)
  · exact absurd hcs.symm hne

theorem text_of_leftOperator (h : t.Lexical) (hk : t.kind = .leftOperator) :
    t.text.toList ≠ [] ∧ ∀ c ∈ t.text.toList, isOperatorChar c = true := by
  obtain ⟨cs, hcs, hne⟩ := h.exists_lexeme hk
  exact ⟨hne, all_of_takeWhile hcs⟩

theorem text_of_ident {c : Char} {l : List Char} (h : t.Lexical) (hk : t.kind = .ident)
    (htext : t.text = String.ofList (c :: l)) : ∀ d ∈ l, isIdentChar d = true := by
  obtain ⟨cs, hcs, -⟩ := h.exists_lexeme hk
  rw [htext, String.toList_ofList] at hcs
  exact (head_of_runLexeme hcs).2

theorem text_of_integer (h : t.Lexical) (hk : t.kind = .integer) :
    ∀ c ∈ t.text.toList, c.isDigit = true := by
  obtain ⟨cs, hcs, -⟩ := h.exists_lexeme hk
  exact all_of_takeWhile hcs

theorem text_of_float (h : t.Lexical) (hk : t.kind = .float) :
    ∃ whole places, t.text.toList = whole ++ '.' :: places ∧ whole ≠ [] ∧
      (∀ c ∈ whole, c.isDigit = true) ∧ (∀ c ∈ places, c.isDigit = true) := by
  obtain ⟨cs, hcs, hne⟩ := h.exists_lexeme hk
  exact parts_of_floatLexeme hcs hne

end Lexical
end Juxta.Token
