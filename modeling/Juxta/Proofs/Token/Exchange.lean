import Juxta.Proofs.Token.Joining

/-!
# What may come behind a lexeme

A lexeme depends on the text behind it only as far as that text could continue it.  What comes
behind may therefore be exchanged for something that continues no lexeme any further: for nothing at
all, for a text that starts in the same way, or for a blank or a comment.

Three classes look further than one character.  A number looks past a point for another digit, a
string looks for quotes in all of the remaining text, and an unquotation is one only in front of a
parenthesis.

## What is here

* `Calmer u u'` — the text `u'` continues no lexeme any further than `u` does.
* `firstLexeme_exchange` — a lexeme stays the first when what comes behind it is exchanged for
  something calmer.
-/

set_option autoImplicit false
namespace Juxta.Token

variable {l u u' : List Char} {k : Kind}

/-- Whether a character ends whatever lexeme stands in front of it, layout and comments aside. -/
def isFiller (c : Char) : Bool :=
  isSpace c || c = '#'

/-- The text `u'` is empty or starts as `u` does. -/
def StartsAs (u u' : List Char) : Prop :=
  ∀ c ∈ u'.head?, c ∈ u.head?

/-- The text `u'` continues no lexeme any further than `u` does, layout and comments aside. -/
structure Calmer (u u' : List Char) : Prop where
  head : ∀ c ∈ u'.head?, c ∈ u.head? ∨ isFiller c = true
  point : ∀ d rest, u' = '.' :: d :: rest → d.isDigit = true → ∃ rest', u = '.' :: d :: rest'
  quote : '"' ∉ u → '"' ∉ u'

/-! ## Choosing a class -/

/-- The class that applies first is one that applies, and no class before it does. -/
theorem firstLexeme_eq_some_iff {cs : List Char} :
    firstLexeme cs = some (k, l) ↔
      l ≠ [] ∧ k.lexeme cs = l ∧
        ∃ before after, Kind.all = before ++ k :: after ∧ ∀ k' ∈ before, k'.lexeme cs = [] := by
  rw [firstLexeme, List.findSome?_eq_some_iff]
  constructor
  · rintro ⟨before, k', after, hall, hk, hbefore⟩
    split at hk
    · cases hk
    · next hne =>
      obtain ⟨rfl, rfl⟩ := Prod.mk.inj (Option.some.inj hk)
      refine ⟨hne, rfl, before, after, hall, fun k'' hk'' => ?_⟩
      have hnone := hbefore k'' hk''
      split at hnone
      · assumption
      · cases hnone
  · rintro ⟨hne, rfl, before, after, hall, hbefore⟩
    refine ⟨before, k, after, hall, ?_, fun k' hk' => by rw [hbefore k' hk']⟩
    split
    · contradiction
    · rfl

/-! ## Runs -/

theorem takeWhile_append_eq_left {p : Char → Bool} :
    (l ++ u).takeWhile p = l ↔ (∀ c ∈ l, p c = true) ∧ ∀ c ∈ u.head?, p c = false := by
  induction l with
  | nil => cases u <;> simp
  | cons c l ih =>
    rw [List.cons_append, List.takeWhile_cons]
    by_cases hc : p c = true <;> simp [hc, ih]

theorem Calmer.head_eq_false (h : Calmer u u') {p : Char → Bool}
    (hp : ∀ c, isFiller c = true → p c = false) (hu : ∀ c ∈ u.head?, p c = false) :
    ∀ c ∈ u'.head?, p c = false := by
  intro c hc
  rcases h.head c hc with hmem | hfiller
  · exact hu c hmem
  · exact hp c hfiller

theorem StartsAs.head_eq_false (h : StartsAs u u') {p : Char → Bool}
    (hu : ∀ c ∈ u.head?, p c = false) : ∀ c ∈ u'.head?, p c = false :=
  fun c hc => hu c (h c hc)

theorem runLexeme_append_eq_left {first others : Char → Bool} (hl : l ≠ []) :
    runLexeme first others (l ++ u) = l ↔
      (∀ c ∈ l.head?, first c = true) ∧ (∀ c ∈ l.tail, others c = true) ∧
        ∀ c ∈ u.head?, others c = false := by
  obtain ⟨c, l, rfl⟩ := List.exists_cons_of_ne_nil hl
  rw [List.cons_append, runLexeme]
  by_cases hc : first c = true
  · simp [hc, takeWhile_append_eq_left]
  · simp [hc]

/-! ## Numbers -/

theorem floatLexeme_of_digits {whole rest : List Char} (hne : whole ≠ [])
    (hwhole : ∀ c ∈ whole, c.isDigit = true) :
    floatLexeme (whole ++ '.' :: rest) =
      if rest.takeWhile Char.isDigit = [] then []
      else whole ++ '.' :: rest.takeWhile Char.isDigit := by
  have htake : (whole ++ '.' :: rest).takeWhile Char.isDigit = whole :=
    takeWhile_append_eq_left.2 ⟨hwhole, by simp⟩
  rw [floatLexeme, htake, List.drop_left]
  simp [List.isEmpty_iff, hne]

theorem isDigit_of_isFiller {c : Char} (h : isFiller c = true) : c.isDigit = false := by
  simp only [isFiller, isSpace, Bool.or_eq_true, decide_eq_true_eq] at h
  rcases h with (rfl | rfl) | rfl <;> decide

theorem floatLexeme_exchange (h : floatLexeme (l ++ u) = l) (hl : l ≠ []) (hcalm : Calmer u u') :
    floatLexeme (l ++ u') = l := by
  obtain ⟨whole, places, rfl, hne, hwhole, -⟩ := parts_of_floatLexeme h hl
  rw [List.append_assoc, List.cons_append, floatLexeme_of_digits hne hwhole] at h ⊢
  split at h
  · exact absurd h.symm hl
  · next hplaces =>
    have htake : (places ++ u).takeWhile Char.isDigit = places := by simpa using h
    obtain ⟨hdigits, hu⟩ := takeWhile_append_eq_left.1 htake
    have hu' := hcalm.head_eq_false (fun _ => isDigit_of_isFiller) hu
    rw [htake] at hplaces
    rw [takeWhile_append_eq_left.2 ⟨hdigits, hu'⟩, if_neg hplaces]

/-- Digits that are no number with a point do not become one. -/
theorem floatLexeme_digits_exchange (hl : l ≠ []) (htake : (l ++ u).takeWhile Char.isDigit = l)
    (h : floatLexeme (l ++ u) = []) (hcalm : Calmer u u') : floatLexeme (l ++ u') = [] := by
  obtain ⟨hdigits, hu⟩ := takeWhile_append_eq_left.1 htake
  have hu' := hcalm.head_eq_false (fun _ => isDigit_of_isFiller) hu
  cases u' with
  | nil =>
    rw [floatLexeme, takeWhile_append_eq_left.2 ⟨hdigits, hu'⟩, List.drop_left]
  | cons c rest =>
    by_cases hc : c = '.'
    · subst hc
      rw [floatLexeme_of_digits hl hdigits, if_pos]
      cases rest with
      | nil => rfl
      | cons d rest =>
        refine List.takeWhile_cons_of_neg fun hd => ?_
        obtain ⟨rest', rfl⟩ := hcalm.point d rest rfl hd
        rw [floatLexeme_of_digits hl hdigits, List.takeWhile_cons_of_pos hd] at h
        simp at h
    · rw [floatLexeme, takeWhile_append_eq_left.2 ⟨hdigits, hu'⟩, List.drop_left]
      simp [hc]

/-! ## Strings -/

/-- The text up to a free quote ends in one. -/
theorem throughFreeQuote_concat {cs body : List Char} (h : throughFreeQuote cs = some body) :
    ∃ init, body = init ++ ['"'] := by
  fun_induction throughFreeQuote cs generalizing body with
  | case1 => cases h
  | case2 rest => exact ⟨[], (Option.some.inj h).symm⟩
  | case3 rest ih =>
    obtain ⟨body', h', rfl⟩ := Option.map_eq_some_iff.1 h
    obtain ⟨init, rfl⟩ := ih h'
    exact ⟨'\\' :: '\n' :: init, rfl⟩
  | case4 c rest _ ih =>
    obtain ⟨body', h', rfl⟩ := Option.map_eq_some_iff.1 h
    obtain ⟨init, rfl⟩ := ih h'
    exact ⟨'\\' :: c :: init, rfl⟩
  | case5 c rest _ _ _ ih =>
    obtain ⟨body', h', rfl⟩ := Option.map_eq_some_iff.1 h
    obtain ⟨init, rfl⟩ := ih h'
    exact ⟨c :: init, rfl⟩

/-- A free quote is found without what comes behind it. -/
theorem throughFreeQuote_self {cs body : List Char} (h : throughFreeQuote cs = some body) :
    throughFreeQuote body = some body := by
  fun_induction throughFreeQuote cs generalizing body with
  | case1 => cases h
  | case2 rest =>
    obtain rfl := Option.some.inj h
    rfl
  | case3 rest ih =>
    obtain ⟨body', h', rfl⟩ := Option.map_eq_some_iff.1 h
    rw [throughFreeQuote, ih h']
    rfl
  | case4 c rest hc ih =>
    obtain ⟨body', h', rfl⟩ := Option.map_eq_some_iff.1 h
    rw [throughFreeQuote, ih h']
    · rfl
    · exact hc
  | case5 c rest hquote hfeed hpair ih =>
    obtain ⟨body', h', rfl⟩ := Option.map_eq_some_iff.1 h
    -- a backslash here has nothing behind it, but then there is no free quote either
    have hc : c ≠ '\\' := by
      rintro rfl
      cases rest with
      | nil => cases h'
      | cons e rest => exact hpair e rest rfl rfl
    rw [throughFreeQuote, ih h']
    · rfl
    · exact hquote
    · exact fun _ hc' => absurd hc' hc
    · exact fun _ _ hc' => absurd hc' hc

/-- Behind the last quote there is none. -/
theorem exists_behind_lastQuote (cs : List Char) :
    ∃ rest, cs = throughLastQuote cs ++ rest ∧ '"' ∉ rest := by
  refine ⟨(cs.reverse.takeWhile (· ≠ '"')).reverse, ?_, fun hmem => ?_⟩
  · rw [throughLastQuote, ← List.reverse_append, List.takeWhile_append_dropWhile,
      List.reverse_reverse]
  · have hne := all_of_takeWhile rfl _ (List.mem_reverse.1 hmem)
    simp at hne

theorem throughLastQuote_append_of_notMem {cs : List Char} (hu : '"' ∉ u) :
    throughLastQuote (cs ++ u) = throughLastQuote cs := by
  have hall : ∀ c ∈ u.reverse, decide (c ≠ '"') = true := by
    intro c hc
    rw [decide_eq_true_eq]
    rintro rfl
    exact hu (List.mem_reverse.1 hc)
  rw [throughLastQuote, throughLastQuote, List.reverse_append, List.dropWhile_append_of_pos hall]

/-- Where no free quote was found, none is found when another text without quotes follows. -/
theorem throughFreeQuote_exchange (h : throughFreeQuote (l ++ u) = none) (hu' : '"' ∉ u') :
    throughFreeQuote (l ++ u') = none := by
  cases hbody : throughFreeQuote (l ++ u') with
  | none => rfl
  | some body =>
    obtain ⟨init, hinit⟩ := throughFreeQuote_concat hbody
    obtain ⟨rest, hrest⟩ := throughFreeQuote_front hbody
    have hself := throughFreeQuote_self hbody
    rcases List.append_eq_append_iff.1 hrest.symm with ⟨w, rfl, -⟩ | ⟨w, hw, hu⟩
    · rw [List.append_assoc, throughFreeQuote_append hself] at h
      cases h
    · rcases List.eq_nil_or_concat w with rfl | ⟨w, c, rfl⟩
      · rw [List.append_nil] at hw
        rw [← hw, throughFreeQuote_append hself] at h
        cases h
      · have hc : c = '"' := by
          rw [hinit, List.concat_eq_append, ← List.append_assoc] at hw
          exact (List.cons.inj (List.append_inj_right' hw rfl)).1.symm
        exact absurd (by rw [hu, hc]; simp) hu'

theorem stringLexeme_exchange (h : stringLexeme (l ++ u) = l) (hl : l ≠ [])
    (hcalm : Calmer u u') : stringLexeme (l ++ u') = l := by
  obtain ⟨c, l, rfl⟩ := List.exists_cons_of_ne_nil hl
  obtain rfl : c = '"' := by simpa [Kind.leads] using Kind.leads_of_lexeme (k := .string) h
  rw [List.cons_append, stringLexeme] at h ⊢
  cases hfree : throughFreeQuote (l ++ u) with
  | some body =>
    simp only [hfree, List.cons.injEq, true_and] at h
    subst h
    simp only [throughFreeQuote_append (throughFreeQuote_self hfree)]
  | none =>
    obtain ⟨rest, hrest, hquote⟩ := exists_behind_lastQuote (l ++ u)
    cases hlast : throughLastQuote (l ++ u) with
    | nil =>
      simp only [hfree, hlast] at h
      cases h
    | cons d body =>
      simp only [hfree, hlast, List.cons.injEq, true_and] at h
      rw [hlast, h] at hrest
      obtain rfl := List.append_cancel_left hrest
      have hu' := hcalm.quote hquote
      rw [throughLastQuote_append_of_notMem hquote] at hlast
      rw [throughFreeQuote_exchange hfree hu', throughLastQuote_append_of_notMem hu', hlast]
      exact congrArg ('"' :: ·) h

theorem throughLastQuote_eq_nil_iff {cs : List Char} : throughLastQuote cs = [] ↔ '"' ∉ cs := by
  rw [throughLastQuote, List.reverse_eq_nil_iff, List.dropWhile_eq_nil_iff]
  constructor
  · intro h hmem
    exact absurd (h '"' (List.mem_reverse.2 hmem)) (by decide)
  · intro h c hc
    rw [decide_eq_true_eq]
    rintro rfl
    exact h (List.mem_reverse.1 hc)

/-- An opening quote is a string if there is another quote, wherever it stands. -/
theorem stringLexeme_eq_nil_iff {cs : List Char} : stringLexeme ('"' :: cs) = [] ↔ '"' ∉ cs := by
  rw [stringLexeme]
  cases hfree : throughFreeQuote cs with
  | some body =>
    obtain ⟨init, rfl⟩ := throughFreeQuote_concat hfree
    obtain ⟨rest, rfl⟩ := throughFreeQuote_front hfree
    simp
  | none =>
    rw [← throughLastQuote_eq_nil_iff]
    cases throughLastQuote cs with
    | nil => simp
    | cons c body => simp

/-! ## Exchanging what comes behind -/

theorem ne_of_isFiller {c : Char} (h : isFiller c = true) : c ≠ '=' ∧ c ≠ ':' ∧ c ≠ '(' := by
  simp only [isFiller, isSpace, Bool.or_eq_true, decide_eq_true_eq] at h
  rcases h with (rfl | rfl) | rfl <;> decide

/-- A class that looks at two characters, the second of which no filler can be. -/
theorem pairLexeme_eq_nil_exchange {lexeme : List Char → List Char} {c : Char}
    (hpair : ∀ e cs ds, lexeme (c :: e :: cs) = lexeme (c :: e :: ds)) (hone : lexeme [c] = [])
    (hfill : ∀ d ds, isFiller d = true → lexeme (c :: d :: ds) = [])
    (h : lexeme (c :: (l ++ u)) = []) (hcalm : Calmer u u') : lexeme (c :: (l ++ u')) = [] := by
  cases l with
  | cons e l => exact (hpair e _ _).trans h
  | nil =>
    cases u' with
    | nil => exact hone
    | cons d rest =>
      rcases hcalm.head d rfl with hmem | hfiller
      · obtain ⟨rest', rfl⟩ := List.head?_eq_some_iff.1 hmem
        exact (hpair d _ _).trans h
      · exact hfill d rest hfiller

/-- A class that does not apply, numbers with a point aside, does not come to apply. -/
theorem lexeme_eq_nil_exchange (h : k.lexeme (l ++ u) = []) (hk : k ≠ .float) (hl : l ≠ [])
    (hcalm : Calmer u u') : k.lexeme (l ++ u') = [] := by
  obtain ⟨c, l, rfl⟩ := List.exists_cons_of_ne_nil hl
  cases k <;> simp only [Kind.lexeme, List.cons_append] at h ⊢
  case float => exact absurd rfl hk
  case integer | leftOperator | whitespace =>
    rw [List.takeWhile_cons] at h ⊢
    split at h
    · cases h
    · next hc => rw [if_neg hc]
  case quote | punctuation =>
    rw [charLexeme] at h ⊢
    exact h
  case ident | newline | comment =>
    rw [runLexeme] at h ⊢
    split at h
    · cases h
    · next hc => rw [if_neg hc]
  case string =>
    by_cases hc : c = '"'
    · subst hc
      rw [stringLexeme_eq_nil_iff, List.mem_append, not_or] at h ⊢
      exact ⟨h.1, hcalm.quote h.2⟩
    · simp [stringLexeme, hc]
  case rightOperator =>
    refine pairLexeme_eq_nil_exchange (rightOperatorLexeme_cons c) ?_ ?_ h hcalm
    · simp [rightOperatorLexeme]
    · intro d ds hd
      simp [rightOperatorLexeme, ne_of_isFiller hd]
  case unquote =>
    refine pairLexeme_eq_nil_exchange (unquoteLexeme_cons c) ?_ ?_ h hcalm
    · simp [unquoteLexeme]
    · intro d ds hd
      simp [unquoteLexeme, ne_of_isFiller hd]

theorem not_inside_of_isFiller {c : Char} (h : isFiller c = true) :
    isOperatorChar c = false ∧ isIdentChar c = false := by
  simp only [isFiller, isSpace, Bool.or_eq_true, decide_eq_true_eq] at h
  rcases h with (rfl | rfl) | rfl <;> decide

/-- Whether a class takes the layout or the text that follows it. -/
def Kind.isOpen (k : Kind) : Bool :=
  k = .newline || k = .comment || k = .whitespace

/-- An unquotation stands in front of a parenthesis. -/
theorem parts_of_unquoteLexeme (h : unquoteLexeme (l ++ u) = l) (hl : l ≠ []) :
    l = ['$'] ∧ ∃ rest, u = '(' :: rest := by
  rw [unquoteLexeme.eq_def] at h
  split at h
  · next rest hcs =>
    subst h
    exact ⟨rfl, rest, (List.cons.inj hcs).2⟩
  · exact absurd h.symm hl

/-- A lexeme stays what it is. -/
theorem lexeme_eq_exchange (h : k.lexeme (l ++ u) = l) (hl : l ≠ []) (hcalm : Calmer u u')
    (hopen : k.isOpen = true → StartsAs u u') (hunquote : k = .unquote → u'.head? = u.head?) :
    k.lexeme (l ++ u') = l := by
  cases k <;> simp only [Kind.lexeme] at h ⊢
  case float => exact floatLexeme_exchange h hl hcalm
  case integer =>
    obtain ⟨hall, hu⟩ := takeWhile_append_eq_left.1 h
    exact takeWhile_append_eq_left.2
      ⟨hall, hcalm.head_eq_false (fun _ => isDigit_of_isFiller) hu⟩
  case leftOperator =>
    obtain ⟨hall, hu⟩ := takeWhile_append_eq_left.1 h
    exact takeWhile_append_eq_left.2
      ⟨hall, hcalm.head_eq_false (fun _ hc => (not_inside_of_isFiller hc).1) hu⟩
  case whitespace =>
    obtain ⟨hall, hu⟩ := takeWhile_append_eq_left.1 h
    exact takeWhile_append_eq_left.2 ⟨hall, (hopen rfl).head_eq_false hu⟩
  case ident =>
    obtain ⟨hfirst, hall, hu⟩ := (runLexeme_append_eq_left hl).1 h
    exact (runLexeme_append_eq_left hl).2
      ⟨hfirst, hall, hcalm.head_eq_false (fun _ hc => (not_inside_of_isFiller hc).2) hu⟩
  case newline | comment =>
    obtain ⟨hfirst, hall, hu⟩ := (runLexeme_append_eq_left hl).1 h
    exact (runLexeme_append_eq_left hl).2 ⟨hfirst, hall, (hopen rfl).head_eq_false hu⟩
  case string => exact stringLexeme_exchange h hl hcalm
  case quote | punctuation =>
    obtain ⟨c, l, rfl⟩ := List.exists_cons_of_ne_nil hl
    exact h
  case rightOperator =>
    rw [rightOperatorLexeme.eq_def] at h
    split at h
    · subst h
      rfl
    · subst h
      rfl
    · exact absurd h.symm hl
  case unquote =>
    obtain ⟨rfl, rest, rfl⟩ := parts_of_unquoteLexeme h hl
    obtain ⟨rest', rfl⟩ := List.head?_eq_some_iff.1 (hunquote rfl)
    rfl

/-- Only numbers begin with a digit. -/
theorem kind_of_isDigit {c : Char} (hc : c.isDigit = true) (h : k.leads c = true) :
    k = .float ∨ k = .integer := by
  have hleads : ("0123456789".toList.all fun d =>
      ∀ k ∈ Kind.all, k.leads d = true → k = .float ∨ k = .integer) = true := by decide
  refine of_decide_eq_true (List.all_eq_true.1 hleads c ?_) k (Kind.mem_all k) h
  simp only [Char.isDigit, Bool.and_eq_true, decide_eq_true_eq] at hc
  have hlow : 48 ≤ c.toNat := hc.1
  have hhigh : c.toNat ≤ 57 := hc.2
  have hcode : c.toNat ∈ "0123456789".toList.map Char.toNat := by
    show c.toNat ∈ [48, 49, 50, 51, 52, 53, 54, 55, 56, 57]
    simp only [List.mem_cons, List.not_mem_nil, or_false]
    omega
  obtain ⟨d, hd, hdc⟩ := List.mem_map.1 hcode
  rwa [← Char.toNat_inj.1 hdc]

/-- Whatever lexeme there is instead of a number with a point, there is still no such number. -/
theorem floatLexeme_eq_nil_exchange (hk : k.lexeme (l ++ u) = l) (hl : l ≠ [])
    (h : floatLexeme (l ++ u) = []) (hcalm : Calmer u u') : floatLexeme (l ++ u') = [] := by
  obtain ⟨c, l, rfl⟩ := List.exists_cons_of_ne_nil hl
  by_cases hc : c.isDigit = true
  · rcases kind_of_isDigit hc (Kind.leads_of_lexeme hk) with rfl | rfl
    · exact absurd (hk.symm.trans h) hl
    · exact floatLexeme_digits_exchange hl hk h hcalm
  · rw [List.cons_append, floatLexeme, List.takeWhile_cons_of_neg hc]
    split
    · rfl
    · rfl

/-- **What comes behind a lexeme may be exchanged** for something calmer: the lexeme stays the
first.  A class that takes the text that follows it must find the same text or none, and an
unquotation must still find its parenthesis. -/
theorem firstLexeme_exchange (h : firstLexeme (l ++ u) = some (k, l)) (hcalm : Calmer u u')
    (hopen : k.isOpen = true → StartsAs u u') (hunquote : k = .unquote → u'.head? = u.head?) :
    firstLexeme (l ++ u') = some (k, l) := by
  obtain ⟨hl, hk, before, after, hall, hbefore⟩ := firstLexeme_eq_some_iff.1 h
  refine firstLexeme_eq_some_iff.2
    ⟨hl, lexeme_eq_exchange hk hl hcalm hopen hunquote, before, after, hall, fun k' hk' => ?_⟩
  by_cases hfloat : k' = .float
  · subst hfloat
    exact floatLexeme_eq_nil_exchange hk hl (hbefore _ hk') hcalm
  · exact lexeme_eq_nil_exchange (hbefore k' hk') hfloat hl hcalm

end Juxta.Token
