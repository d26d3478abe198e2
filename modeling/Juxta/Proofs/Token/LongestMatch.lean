import Juxta.Proofs.Token.Tiling
import Mathlib.Data.List.MinMax

/-!
# The first class and the longest lexeme

A lexer can choose the class with the longest lexeme instead of the first one in a table.  The table
of this library is in such an order that the two rules agree, but for one case.

Two classes can apply to the same text in four ways, and each time the order has a reason.  A number
with a point takes more than its digits, an operator that nests to the right more than a quote, and
an unquotation as much as an identifier, which cannot go on with a parenthesis.  At a minus sign,
however, the operator is tried before the identifier, whichever of them takes more.

## What is here

* `longestLexeme` — the other rule, with its law `longestLexeme_eq_some_iff`.
* `overlaps` — the pairs of classes that can apply to the same text; `mem_overlaps` says that there
  are no others.
* `MinusLeadsName` — the case in which the two rules differ.
* `first_class_takes_longest` — they agree otherwise, and what follows for the tokens of a source.
-/

set_option autoImplicit false
namespace Juxta.Token

variable {c : Char} {cs l : List Char} {k k' : Kind} {pos : Nat} {pieces : List Token} {t : Token}

/-! ## The longest lexeme -/

/-- Of all classes the one whose lexeme is longest, and of several such classes the first; nothing
if no class applies. -/
def longestLexeme (cs : List Char) : Option (Kind × List Char) :=
  ((Kind.all.argmax fun k => (k.lexeme cs).length).map fun k => (k, k.lexeme cs)).filter
    fun found => !found.2.isEmpty

theorem longestLexeme_eq_some_iff :
    longestLexeme cs = some (k, l) ↔
      l ≠ [] ∧ k.lexeme cs = l ∧ (∀ k' : Kind, (k'.lexeme cs).length ≤ l.length) ∧
        ∀ k' : Kind, l.length ≤ (k'.lexeme cs).length →
          Kind.all.idxOf k ≤ Kind.all.idxOf k' := by
  rw [longestLexeme, Option.filter_eq_some_iff, Option.map_eq_some_iff]
  constructor
  · rintro ⟨⟨k'', hmax, hk⟩, hne⟩
    obtain ⟨rfl, rfl⟩ := Prod.mk.inj hk
    obtain ⟨-, hle, hfirst⟩ := List.argmax_eq_some_iff.1 hmax
    exact ⟨by simpa using hne, rfl, fun k' => hle k' (Kind.mem_all k'),
      fun k' => hfirst k' (Kind.mem_all k')⟩
  · rintro ⟨hne, rfl, hle, hfirst⟩
    refine ⟨⟨k, List.argmax_eq_some_iff.2 ⟨Kind.mem_all k, fun k' _ => hle k', ?_⟩, rfl⟩, ?_⟩
    · exact fun k' _ => hfirst k'
    · simpa using hne

theorem longestLexeme_eq_none (h : ∀ k : Kind, k.lexeme cs = []) : longestLexeme cs = none := by
  cases hlongest : longestLexeme cs with
  | none => rfl
  | some found =>
    obtain ⟨hne, hl, -⟩ := longestLexeme_eq_some_iff.1 hlongest
    exact absurd (hl.symm.trans (h _)) hne

/-! ## Classes that overlap -/

/-- The classes that can begin with the same character, in the order in which they are tried. -/
def overlaps : List (Kind × Kind) :=
  [(.float, .integer), (.rightOperator, .quote), (.unquote, .ident), (.leftOperator, .ident)]

/-- Only identifiers begin with a letter. -/
theorem kind_of_isAlpha (hc : c.isAlpha = true) (h : k.leads c = true) : k = .ident := by
  have hlist {cs : List Char} (hall : cs.all (!·.isAlpha) = true) (hmem : cs.contains c = true) :
      k = .ident := by
    have hnot := List.all_eq_true.1 hall c (List.contains_iff_mem.1 hmem)
    simp [hc] at hnot
  cases k with
  | ident => rfl
  | float | integer =>
    have hident : Kind.ident.leads c = true := by simp [Kind.leads, isIdentStart, hc]
    rcases kind_of_isDigit h hident with hkind | hkind <;> cases hkind
  | leftOperator => exact hlist (by decide) h
  | punctuation => exact hlist (by decide) h
  | string | rightOperator | quote | unquote | newline | comment =>
    rw [of_decide_eq_true h] at hc
    exact absurd hc (by decide)
  | whitespace =>
    simp only [Kind.leads, isSpace, Bool.or_eq_true, decide_eq_true_eq] at h
    rcases h with rfl | rfl <;> exact absurd hc (by decide)

/-- Two classes that can begin with the same character are among those that overlap. -/
theorem mem_overlaps (h : k.leads c = true) (h' : k'.leads c = true) :
    k = k' ∨ (k, k') ∈ overlaps ∨ (k', k) ∈ overlaps := by
  have halphabet := inAlphabet_iff.2 ⟨k, h⟩
  rw [inAlphabet, Bool.or_eq_true, Bool.or_eq_true, List.contains_iff_mem] at halphabet
  rcases halphabet with (hdigit | halpha) | hmark
  · rcases kind_of_isDigit hdigit h with rfl | rfl <;>
      rcases kind_of_isDigit hdigit h' with rfl | rfl <;> decide
  · exact .inl ((kind_of_isAlpha halpha h).trans (kind_of_isAlpha halpha h').symm)
  · have hmarks : (marks.all fun d => ∀ k ∈ Kind.all, ∀ k' ∈ Kind.all, k.leads d = true →
        k'.leads d = true → k = k' ∨ (k, k') ∈ overlaps ∨ (k', k) ∈ overlaps) = true := by
      decide +kernel
    exact of_decide_eq_true (List.all_eq_true.1 hmarks c hmark) k (Kind.mem_all k) k'
      (Kind.mem_all k') h h'

/-! ## Where classes overlap -/

/-- A number with a point takes more than its digits. -/
theorem length_integer_le_float (h : floatLexeme cs ≠ []) :
    (cs.takeWhile Char.isDigit).length ≤ (floatLexeme cs).length := by
  obtain ⟨whole, places, hl, -, hwhole, -⟩ := parts_of_floatLexeme rfl h
  obtain ⟨rest, hrest⟩ := floatLexeme_front cs
  have htake : cs.takeWhile Char.isDigit = whole := by
    rw [hrest, hl, List.append_assoc]
    exact takeWhile_append_eq_left.2 ⟨hwhole, by simp⟩
  rw [htake, hl, List.length_append]
  exact Nat.le_add_right _ _

theorem length_charLexeme_le (p : Char → Bool) (cs : List Char) :
    (charLexeme p cs).length ≤ 1 := by
  cases cs with
  | nil => exact Nat.zero_le 1
  | cons c cs =>
    rw [charLexeme]
    split <;> simp

/-- An identifier does not go on with a parenthesis. -/
theorem length_ident_le_unquote (h : unquoteLexeme cs ≠ []) :
    (Kind.ident.lexeme cs).length ≤ (unquoteLexeme cs).length := by
  rw [unquoteLexeme.eq_def] at h ⊢
  split at h
  · exact Nat.le_refl 1
  · exact absurd rfl h

/-- A minus sign stands in front of the text, and an identifier takes more of it than an operator
does. -/
def MinusLeadsName (cs : List Char) : Prop :=
  cs.head? = some '-' ∧ (Kind.leftOperator.lexeme cs).length < (Kind.ident.lexeme cs).length

instance (cs : List Char) : Decidable (MinusLeadsName cs) :=
  inferInstanceAs (Decidable (_ ∧ _))

/-- An operator with which an identifier can begin is a minus sign. -/
theorem length_ident_le_leftOperator (h : Kind.leftOperator.lexeme cs ≠ [])
    (hminus : ¬ MinusLeadsName cs) :
    (Kind.ident.lexeme cs).length ≤ (Kind.leftOperator.lexeme cs).length := by
  cases cs with
  | nil => exact absurd rfl h
  | cons c cs =>
    by_cases hident : Kind.ident.lexeme (c :: cs) = []
    · rw [hident]
      exact Nat.zero_le _
    · have hop := leads_of_lexeme_ne_nil h
      have hname := leads_of_lexeme_ne_nil hident
      simp only [Kind.leads, isIdentStart, Bool.or_eq_true, decide_eq_true_eq] at hname
      have hc : c = '-' := by
        rcases hname with ((halpha | rfl) | rfl) | rfl
        · cases kind_of_isAlpha (k := .leftOperator) halpha hop
        · rfl
        · exact absurd hop (by decide)
        · exact absurd hop (by decide)
      exact Nat.le_of_not_lt fun hlt => hminus ⟨congrArg some hc, hlt⟩

/-- The first of two classes that overlap takes at least as much, if it applies at all. -/
theorem length_le_of_mem_overlaps (h : (k, k') ∈ overlaps) (hk : k.lexeme cs ≠ [])
    (hminus : ¬ MinusLeadsName cs) : (k'.lexeme cs).length ≤ (k.lexeme cs).length := by
  simp only [overlaps, List.mem_cons, Prod.mk.injEq, List.not_mem_nil, or_false] at h
  rcases h with ⟨rfl, rfl⟩ | ⟨rfl, rfl⟩ | ⟨rfl, rfl⟩ | ⟨rfl, rfl⟩
  · exact length_integer_le_float hk
  · exact (length_charLexeme_le _ cs).trans (List.length_pos_iff.2 hk)
  · exact length_ident_le_unquote hk
  · exact length_ident_le_leftOperator hk hminus

/-! ## The two rules -/

/-- Of the classes that apply, the one that is chosen comes first in the table. -/
theorem idxOf_le_of_firstLexeme (h : firstLexeme cs = some (k, l)) (hk' : k'.lexeme cs ≠ []) :
    Kind.all.idxOf k ≤ Kind.all.idxOf k' := by
  obtain ⟨-, -, before, after, hall, hbefore⟩ := firstLexeme_eq_some_iff.1 h
  have hnodup : (before ++ k :: after).Nodup := hall ▸ (by decide : Kind.all.Nodup)
  have hk : k ∉ before := fun hmem =>
    (List.nodup_append.1 hnodup).2.2 k hmem k List.mem_cons_self rfl
  have hk' : k' ∉ before := fun hmem => hk' (hbefore k' hmem)
  rw [hall, List.idxOf_append_of_notMem hk, List.idxOf_append_of_notMem hk', List.idxOf_cons_self]
  exact Nat.add_le_add_left (Nat.zero_le _) _

theorem idxOf_lt_of_mem_overlaps (h : (k, k') ∈ overlaps) :
    Kind.all.idxOf k < Kind.all.idxOf k' := by
  have hall : ∀ pair ∈ overlaps, Kind.all.idxOf pair.1 < Kind.all.idxOf pair.2 := by decide
  exact hall _ h

/-- No class takes more than the one that is chosen, but for a minus sign that leads a name. -/
theorem length_lexeme_le_of_firstLexeme (h : firstLexeme cs = some (k, l))
    (hminus : ¬ MinusLeadsName cs) (k' : Kind) : (k'.lexeme cs).length ≤ l.length := by
  have hne := ne_nil_of_firstLexeme h
  obtain rfl := lexeme_of_firstLexeme h
  by_cases hk' : k'.lexeme cs = []
  · rw [hk']
    exact Nat.zero_le _
  · cases cs with
    | nil => cases h
    | cons c cs =>
      rcases mem_overlaps (leads_of_lexeme_ne_nil hne) (leads_of_lexeme_ne_nil hk') with
        rfl | hmem | hmem
      · exact Nat.le_refl _
      · exact length_le_of_mem_overlaps hmem hne hminus
      · exact absurd (idxOf_le_of_firstLexeme h hk') (Nat.not_le.2 (idxOf_lt_of_mem_overlaps hmem))

/-- Elsewhere than at a minus sign that leads a name the two rules agree. -/
theorem firstLexeme_eq_longestLexeme (hminus : ¬ MinusLeadsName cs) :
    firstLexeme cs = longestLexeme cs := by
  cases h : firstLexeme cs with
  | none => exact (longestLexeme_eq_none (firstLexeme_eq_none_iff.1 h)).symm
  | some found =>
    obtain ⟨k, l⟩ := found
    have hne := ne_nil_of_firstLexeme h
    symm
    refine longestLexeme_eq_some_iff.2 ⟨hne, lexeme_of_firstLexeme h,
      length_lexeme_le_of_firstLexeme h hminus, fun k' hle => idxOf_le_of_firstLexeme h ?_⟩
    exact List.length_pos_iff.1 ((List.length_pos_iff.2 hne).trans_le hle)

/-- A minus sign is always read as an operator. -/
theorem firstLexeme_minus (cs : List Char) :
    firstLexeme ('-' :: cs) = some (.leftOperator, Kind.leftOperator.lexeme ('-' :: cs)) := rfl

/-- Where a minus sign leads a name, the name is what is longest. -/
theorem longestLexeme_of_minusLeadsName (h : MinusLeadsName cs) :
    longestLexeme cs = some (.ident, Kind.ident.lexeme cs) := by
  obtain ⟨hhead, hlt⟩ := h
  obtain ⟨cs, rfl⟩ := List.head?_eq_some_iff.1 hhead
  have hkind (k' : Kind) (hk' : k'.lexeme ('-' :: cs) ≠ []) : k' = .leftOperator ∨ k' = .ident := by
    have hall : ∀ k ∈ Kind.all, k.leads '-' = true → k = .leftOperator ∨ k = .ident := by decide
    exact hall k' (Kind.mem_all k') (leads_of_lexeme_ne_nil hk')
  have hne : Kind.ident.lexeme ('-' :: cs) ≠ [] := List.length_pos_iff.1 (Nat.zero_lt_of_lt hlt)
  refine longestLexeme_eq_some_iff.2 ⟨hne, rfl, fun k' => ?_, fun k' hle => ?_⟩
  · by_cases hk' : k'.lexeme ('-' :: cs) = []
    · rw [hk']
      exact Nat.zero_le _
    · rcases hkind k' hk' with rfl | rfl
      · exact hlt.le
      · exact Nat.le_refl _
  · have hk' := List.length_pos_iff.1 ((List.length_pos_iff.2 hne).trans_le hle)
    rcases hkind k' hk' with rfl | rfl
    · exact absurd hle (Nat.not_le.2 hlt)
    · exact Nat.le_refl _

/-! ## Names and unquotations -/

/-- No identifier that was cut from a text begins with a minus sign. -/
theorem Lexical.head?_ne_minus (h : t.Lexical) (hk : t.kind = .ident) :
    t.text.toList.head? ≠ some '-' := by
  intro hhead
  obtain ⟨l, hl⟩ := List.head?_eq_some_iff.1 hhead
  obtain ⟨cs, hfirst⟩ := h
  obtain ⟨after, rfl⟩ := exists_append_of_firstLexeme hfirst
  rw [hl, List.cons_append, firstLexeme_minus, hk] at hfirst
  cases (Prod.mk.inj (Option.some.inj hfirst)).1

/-- Directly behind an unquotation a parenthesis is cut. -/
theorem Cuts.paren_of_unquote {before after : List Token} (h : Cuts pos cs (before ++ t :: after))
    (hk : t.kind = .unquote) : ∃ rest, after = ⟨.punctuation, "(", t.stop⟩ :: rest := by
  induction before generalizing pos cs with
  | cons u before ih =>
    cases h with
    | cons _ hrest => exact ih hrest
  | nil =>
    cases h with
    | @cons pos _ l k _ hfirst hrest =>
      obtain rfl : k = .unquote := hk
      obtain ⟨cs', rfl⟩ := exists_append_of_firstLexeme hfirst
      obtain ⟨rfl, rest, rfl⟩ :=
        parts_of_unquoteLexeme (lexeme_of_firstLexeme hfirst) (ne_nil_of_firstLexeme hfirst)
      cases hrest with
      | cons hparen hrest =>
        obtain ⟨rfl, rfl⟩ := Prod.mk.inj (Option.some.inj hparen)
        have hstop : (⟨.unquote, String.ofList ['$'], pos⟩ : Token).stop = ↑(pos + 1) := by
          rw [stop, String.length_ofList]
          exact (Int.natCast_add _ _).symm
        rw [hstop]
        exact ⟨_, rfl⟩

/-- **The first class takes the longest lexeme, except at a minus sign.**  Wherever a source is cut,
the class that applies first is the one whose lexeme is longest, and of several such classes the
first; unless a minus sign stands there and leads an identifier that is longer than the operator,
which is then chosen all the same.  No identifier of a source therefore begins with a minus sign,
and the token behind an unquotation is always a parenthesis, directly adjacent to it. -/
theorem first_class_takes_longest (source : String) :
    (∀ p : Nat,
      let cs := source.toList.drop p
      if source.toList[p]? = some '-' ∧
          (Kind.leftOperator.lexeme cs).length < (Kind.ident.lexeme cs).length then
        firstLexeme cs = some (.leftOperator, Kind.leftOperator.lexeme cs) ∧
          longestLexeme cs = some (.ident, Kind.ident.lexeme cs)
      else firstLexeme cs = longestLexeme cs) ∧
      ∀ comments tokens, tokenizeWith comments source = .ok tokens →
        (∀ t ∈ tokens, t.kind = .ident → t.text.toList.head? ≠ some '-') ∧
          ∀ before t after, tokens = before ++ t :: after → t.kind = .unquote →
            ∃ rest, after = ⟨.punctuation, "(", t.stop⟩ :: rest := by
  refine ⟨fun p => ?_, fun comments tokens htokens => ?_⟩
  · rw [← List.head?_drop]
    dsimp only
    split
    · next hminus =>
      refine ⟨?_, longestLexeme_of_minusLeadsName hminus⟩
      obtain ⟨cs, hcs⟩ := List.head?_eq_some_iff.1 hminus.1
      rw [hcs]
      exact firstLexeme_minus cs
    · next hminus => exact firstLexeme_eq_longestLexeme hminus
  · obtain ⟨pieces, hcuts, rfl⟩ := cuts_of_tokenizeWith htokens
    refine ⟨fun t ht => (hcuts.lexical t (List.mem_filter.1 ht).1).head?_ne_minus, ?_⟩
    intro before t after hsplit hk
    obtain ⟨front, back, rfl, -, hback⟩ := List.filter_eq_append_iff.1 hsplit
    obtain ⟨skipped, back', rfl, -, -, rfl⟩ := List.filter_eq_cons_iff.1 hback
    rw [← List.append_assoc] at hcuts
    obtain ⟨rest, rfl⟩ := hcuts.paren_of_unquote hk
    exact ⟨_, List.filter_cons_of_pos rfl⟩

/-- An operator in front of a longer name, one that is as long as the name, and an unquotation with
comments and blanks around it. -/
theorem first_class_takes_longest_minus :
    let source := "-a - # no\n$(--> b-c)"
    ∃ tokens, tokenizeWith true source = .ok tokens ∧
      firstLexeme source.toList = some (.leftOperator, ['-']) ∧
      longestLexeme source.toList = some (.ident, ['-', 'a']) ∧
      (∀ t ∈ tokens, t.kind = .ident → t.text.toList.head? ≠ some '-') ∧
      ∀ before t after, tokens = before ++ t :: after → t.kind = .unquote →
        ∃ rest, after = ⟨.punctuation, "(", t.stop⟩ :: rest := by
  intro source
  have hok : (tokenizeWith true source).isOk = true := by decide +kernel
  cases htokens : tokenizeWith true source with
  | error e =>
    rw [htokens] at hok
    cases hok
  | ok tokens =>
    obtain ⟨hlongest, hrest⟩ := first_class_takes_longest source
    have hminus := hlongest 0
    have hname : source.toList[0]? = some '-' ∧
        (Kind.leftOperator.lexeme (source.toList.drop 0)).length <
          (Kind.ident.lexeme (source.toList.drop 0)).length := by decide +kernel
    dsimp only at hminus
    rw [if_pos hname] at hminus
    obtain ⟨hfirst, hlongest⟩ := hminus
    have hop : Kind.leftOperator.lexeme (source.toList.drop 0) = ['-'] := by decide +kernel
    have hident : Kind.ident.lexeme (source.toList.drop 0) = ['-', 'a'] := by decide +kernel
    rw [hop] at hfirst
    rw [hident] at hlongest
    exact ⟨tokens, rfl, hfirst, hlongest, hrest true tokens htokens⟩

end Juxta.Token
