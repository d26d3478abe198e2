import Juxta.Proofs.Token.Lexical
import Mathlib.Data.List.TakeWhile

/-!
# Lexing joined texts

Two texts that are joined by a line feed are cut as each of them is by itself: no lexeme reaches
over the line feed, with two exceptions.  The line end itself takes along the layout on both its
sides, so that the last line end of the first text, the joining one and the layout at the start of
the second text are one token.  And a string that is not closed by a free quote would look for
another quote in the second text, so that strings must be closed by free quotes.

## What is here

* `EndsFreely` — a string is closed by a quote that no backslash pairs with.
* `shift` — a token that stands somewhat later.
* `firstLexeme_append` — a lexeme does not change when a line feed and more text follow.
* `tokenize_join` — the tokens of two joined texts.
-/

set_option autoImplicit false
namespace Juxta.Token

variable {cs ds lexeme : List Char} {k : Kind} {pos d : Nat} {pieces : List Token} {t : Token}

/-! ## Strings -/

/-- The text of a string after its opening quote ends at the first quote that no backslash pairs
with. -/
def EndsFreely (t : Token) : Prop :=
  throughFreeQuote t.text.toList.tail = some t.text.toList.tail

instance (t : Token) : Decidable t.EndsFreely :=
  inferInstanceAs (Decidable (_ = _))

/-- Every string of the source is closed by a quote that no backslash pairs with. -/
def StringsEndFreely (source : String) : Prop :=
  ∀ ts, tokenize source = .ok ts → ∀ t ∈ ts, t.kind = .string → t.EndsFreely

instance (source : String) : Decidable (StringsEndFreely source) :=
  match h : tokenize source with
  | .error _ => isTrue fun _ hts => nomatch h.symm.trans hts
  | .ok us =>
    if hus : ∀ t ∈ us, t.kind = .string → t.EndsFreely then
      isTrue fun _ hts => Except.ok.inj (h.symm.trans hts) ▸ hus
    else
      isFalse fun hall => hus (hall us h)

/-- What follows a free quote does not matter. -/
theorem throughFreeQuote_append {body : List Char} (h : throughFreeQuote cs = some body)
    (ds : List Char) : throughFreeQuote (cs ++ ds) = some body := by
  fun_induction throughFreeQuote cs generalizing body with
  | case1 => cases h
  | case2 rest =>
    rw [List.cons_append, throughFreeQuote]
    exact h
  | case3 rest ih =>
    obtain ⟨body', h', rfl⟩ := Option.map_eq_some_iff.1 h
    rw [List.cons_append, List.cons_append, throughFreeQuote, ih h']
    rfl
  | case4 c rest hc ih =>
    obtain ⟨body', h', rfl⟩ := Option.map_eq_some_iff.1 h
    rw [List.cons_append, List.cons_append, throughFreeQuote, ih h']
    · rfl
    · exact hc
  | case5 c rest hquote hfeed hpair ih =>
    obtain ⟨body', h', rfl⟩ := Option.map_eq_some_iff.1 h
    cases rest with
    | nil => cases h'
    | cons e rest =>
      rw [List.cons_append, throughFreeQuote, ih h']
      · rfl
      · exact hquote
      · intro rest' hc hrest
        obtain ⟨rfl, -⟩ := List.cons.inj hrest
        exact hfeed rest hc rfl
      · intro e' rest' hc hrest
        exact hpair e rest hc rfl

theorem throughLastQuote_append (cs : List Char) : ∃ rest, cs = throughLastQuote cs ++ rest := by
  obtain ⟨rest, hrest⟩ := List.dropWhile_suffix (l := cs.reverse) (fun c => decide (c ≠ '"'))
  refine ⟨rest.reverse, ?_⟩
  rw [throughLastQuote, ← List.reverse_append, hrest, List.reverse_reverse]

/-- A string that ends freely is closed by the first free quote. -/
theorem EndsFreely.isSome_throughFreeQuote (h : t.EndsFreely) {rest : List Char}
    (ht : stringLexeme ('"' :: rest) = t.text.toList) : (throughFreeQuote rest).isSome = true := by
  cases hfree : throughFreeQuote rest with
  | some body => rfl
  | none =>
    obtain ⟨rest', hrest⟩ := throughLastQuote_append rest
    rw [EndsFreely, ← ht, stringLexeme, hfree] at h
    cases hlast : throughLastQuote rest with
    | nil =>
      simp only [hlast] at h
      cases h
    | cons c body =>
      simp only [hlast, List.tail_cons] at h
      rw [hrest, hlast, throughFreeQuote_append h] at hfree
      cases hfree

/-! ## Lexemes in front of a line feed -/

theorem takeWhile_append_cons {p : Char → Bool} {c : Char} (hc : p c = false) (cs ds : List Char) :
    (cs ++ c :: ds).takeWhile p = cs.takeWhile p := by
  induction cs with
  | nil => exact List.takeWhile_cons_of_neg (by simp [hc])
  | cons e cs ih => rw [List.cons_append, List.takeWhile_cons, List.takeWhile_cons, ih]

theorem takeWhile_append_of_not_all {p : Char → Bool} (h : cs.all p = false) (ds : List Char) :
    (cs ++ ds).takeWhile p = cs.takeWhile p := by
  induction cs with
  | nil => cases h
  | cons c cs ih =>
    rw [List.cons_append, List.takeWhile_cons, List.takeWhile_cons]
    split
    · next hc =>
      rw [List.all_cons, hc, Bool.true_and] at h
      rw [ih h]
    · rfl

theorem runLexeme_append {first others : Char → Bool} {c : Char} (hfirst : first c = false)
    (hothers : others c = false) (cs ds : List Char) :
    runLexeme first others (cs ++ c :: ds) = runLexeme first others cs := by
  cases cs with
  | nil => simp [runLexeme, hfirst]
  | cons e cs => rw [List.cons_append, runLexeme, runLexeme, takeWhile_append_cons hothers]

theorem charLexeme_append {p : Char → Bool} {c : Char} (hc : p c = false) (cs ds : List Char) :
    charLexeme p (cs ++ c :: ds) = charLexeme p cs := by
  cases cs with
  | nil => simp [charLexeme, hc]
  | cons e cs => rfl

/-- Two characters decide about an operator that nests to the right. -/
theorem rightOperatorLexeme_cons (c e : Char) (cs ds : List Char) :
    rightOperatorLexeme (c :: e :: cs) = rightOperatorLexeme (c :: e :: ds) := by
  by_cases hc : c = ':'
  · subst hc
    by_cases he : e = '=' ∨ e = ':'
    · rcases he with rfl | rfl <;> rfl
    · simp only [not_or] at he
      simp [rightOperatorLexeme, he]
  · simp [rightOperatorLexeme, hc]

/-- Two characters decide about an unquotation. -/
theorem unquoteLexeme_cons (c e : Char) (cs ds : List Char) :
    unquoteLexeme (c :: e :: cs) = unquoteLexeme (c :: e :: ds) := by
  by_cases hc : c = '$'
  · subst hc
    by_cases he : e = '('
    · subst he
      rfl
    · simp [unquoteLexeme, he]
  · simp [unquoteLexeme, hc]

theorem floatLexeme_append (cs ds : List Char) :
    floatLexeme (cs ++ '\n' :: ds) = floatLexeme cs := by
  have hle : (cs.takeWhile Char.isDigit).length ≤ cs.length :=
    (List.takeWhile_sublist Char.isDigit).length_le
  rw [floatLexeme, floatLexeme, takeWhile_append_cons (by decide),
    List.drop_append_of_le_length hle]
  cases hdrop : cs.drop (cs.takeWhile Char.isDigit).length with
  | nil => rfl
  | cons e rest =>
    by_cases he : e = '.'
    · subst he
      simp only [List.cons_append, takeWhile_append_cons (show Char.isDigit '\n' = false by decide)]
    · simp [he]

/-- Whatever class applies, its lexeme does not change when a line feed and more text follow, unless
it is a string that is not closed or a line end that reaches to the end. -/
theorem Kind.lexeme_append {c : Char}
    (hstring : c = '"' → (throughFreeQuote cs).isSome = true)
    (hline : c = '\n' → cs.all isLayout = false) (k : Kind) (ds : List Char) :
    k.lexeme (c :: cs ++ '\n' :: ds) = k.lexeme (c :: cs) := by
  cases k <;> simp only [Kind.lexeme]
  case float => exact floatLexeme_append _ _
  case integer | leftOperator | whitespace => exact takeWhile_append_cons (by decide) _ _
  case quote | punctuation => exact charLexeme_append (by decide) _ _
  case ident | comment => exact runLexeme_append (by decide) (by decide) _ _
  case string =>
    by_cases hc : c = '"'
    · subst hc
      obtain ⟨body, hbody⟩ := Option.isSome_iff_exists.1 (hstring rfl)
      simp only [List.cons_append, stringLexeme, hbody, throughFreeQuote_append hbody]
    · simp [stringLexeme, hc]
  case rightOperator =>
    cases cs with
    | nil => simp [rightOperatorLexeme]
    | cons e cs =>
      exact rightOperatorLexeme_cons c e _ _
  case unquote =>
    cases cs with
    | nil => simp [unquoteLexeme]
    | cons e cs =>
      exact unquoteLexeme_cons c e _ _
  case newline =>
    rw [List.cons_append, runLexeme, runLexeme]
    split
    · next hc =>
      rw [takeWhile_append_of_not_all (hline (by simpa using hc))]
    · rfl

/-! ## A lexeme is the front of its text -/

theorem throughFreeQuote_front {body : List Char} (h : throughFreeQuote cs = some body) :
    ∃ rest, cs = body ++ rest := by
  fun_induction throughFreeQuote cs generalizing body with
  | case1 => cases h
  | case2 rest =>
    obtain rfl := Option.some.inj h
    exact ⟨rest, rfl⟩
  | case3 rest ih | case4 c rest hc ih | case5 c rest hquote hfeed hpair ih =>
    obtain ⟨body', h', rfl⟩ := Option.map_eq_some_iff.1 h
    obtain ⟨rest', rfl⟩ := ih h'
    exact ⟨rest', rfl⟩

theorem takeWhile_front (p : Char → Bool) (cs : List Char) : ∃ rest, cs = cs.takeWhile p ++ rest :=
  ⟨_, List.takeWhile_append_dropWhile.symm⟩

theorem runLexeme_front (first others : Char → Bool) (cs : List Char) :
    ∃ rest, cs = runLexeme first others cs ++ rest := by
  cases cs with
  | nil => exact ⟨[], rfl⟩
  | cons c cs =>
    rw [runLexeme]
    split
    · obtain ⟨rest, hrest⟩ := takeWhile_front others cs
      exact ⟨rest, congrArg (c :: ·) hrest⟩
    · exact ⟨c :: cs, rfl⟩

theorem charLexeme_front (p : Char → Bool) (cs : List Char) :
    ∃ rest, cs = charLexeme p cs ++ rest := by
  cases cs with
  | nil => exact ⟨[], rfl⟩
  | cons c cs =>
    rw [charLexeme]
    split
    · exact ⟨cs, rfl⟩
    · exact ⟨c :: cs, rfl⟩

theorem floatLexeme_front (cs : List Char) : ∃ rest, cs = floatLexeme cs ++ rest := by
  rw [floatLexeme]
  split
  · next rest hrest =>
    simp only
    split
    · exact ⟨cs, rfl⟩
    · obtain ⟨rest', hrest'⟩ := takeWhile_front Char.isDigit rest
      obtain ⟨after, hcs⟩ := takeWhile_front Char.isDigit cs
      have hdrop := congrArg (List.drop (cs.takeWhile Char.isDigit).length) hcs
      rw [List.drop_left] at hdrop
      refine ⟨rest', ?_⟩
      rw [List.append_assoc, List.cons_append, ← hrest', ← hrest, hdrop]
      exact hcs
  · exact ⟨cs, rfl⟩

theorem stringLexeme_front (cs : List Char) : ∃ rest, cs = stringLexeme cs ++ rest := by
  rw [stringLexeme.eq_def]
  split
  · next rest =>
    split
    · next body hbody =>
      obtain ⟨rest', rfl⟩ := throughFreeQuote_front hbody
      exact ⟨rest', rfl⟩
    · obtain ⟨rest', hrest'⟩ := throughLastQuote_append rest
      split
      · exact ⟨'"' :: rest, rfl⟩
      · exact ⟨rest', congrArg ('"' :: ·) hrest'⟩
  · exact ⟨cs, rfl⟩

/-- A lexeme is the front of its text. -/
theorem Kind.lexeme_front (k : Kind) (cs : List Char) : ∃ rest, cs = k.lexeme cs ++ rest := by
  cases k <;> simp only [Kind.lexeme]
  case float => exact floatLexeme_front cs
  case integer | leftOperator | whitespace => exact takeWhile_front _ cs
  case quote | punctuation => exact charLexeme_front _ cs
  case ident | comment | newline => exact runLexeme_front _ _ cs
  case string => exact stringLexeme_front cs
  case rightOperator =>
    rw [rightOperatorLexeme.eq_def]
    split
    · next rest => exact ⟨rest, rfl⟩
    · next rest => exact ⟨rest, rfl⟩
    · exact ⟨cs, rfl⟩
  case unquote =>
    rw [unquoteLexeme.eq_def]
    split
    · next rest => exact ⟨'(' :: rest, rfl⟩
    · exact ⟨cs, rfl⟩

/-- Where the line feed comes after a lexeme, that lexeme stays the first. -/
theorem firstLexeme_append (h : firstLexeme cs = some (t.kind, t.text.toList))
    (hstring : t.kind = .string → t.EndsFreely)
    (hline : t.kind = .newline → t.text.toList ≠ cs) (ds : List Char) :
    firstLexeme (cs ++ '\n' :: ds) = some (t.kind, t.text.toList) := by
  obtain ⟨c, l, htext⟩ := List.exists_cons_of_ne_nil (ne_nil_of_firstLexeme h)
  have hlexeme := lexeme_of_firstLexeme h
  have hlead := Kind.leads_of_lexeme (hlexeme.trans htext)
  obtain ⟨rest, hcs⟩ := t.kind.lexeme_front cs
  rw [hlexeme, htext, List.cons_append] at hcs
  subst hcs
  have hkind {d : Char} {k : Kind} (hc : c = d)
      (hall : ∀ k' ∈ Kind.all, k'.leads d = true → k' = k) : t.kind = k :=
    hall t.kind (Kind.mem_all _) (hc ▸ hlead)
  have hsame : ∀ k : Kind,
      k.lexeme (c :: (l ++ rest) ++ '\n' :: ds) = k.lexeme (c :: (l ++ rest)) := by
    refine fun k => Kind.lexeme_append ?_ ?_ k ds
    · intro hc
      have hk := hkind (k := .string) hc (by decide)
      rw [hk, hc] at hlexeme
      exact (hstring hk).isSome_throughFreeQuote hlexeme
    · intro hc
      have hk := hkind (k := .newline) hc (by decide)
      rw [hk, hc, Kind.lexeme, runLexeme, if_pos (by decide)] at hlexeme
      rw [Bool.eq_false_iff]
      intro hall
      rw [List.takeWhile_eq_self_iff.2 (List.all_eq_true.1 hall)] at hlexeme
      exact hline hk (hc ▸ hlexeme.symm)
  rw [← h, firstLexeme, firstLexeme]
  simp only [hsame]

/-! ## Cutting joined texts -/

/-- The token with the same text that stands `d` characters later. -/
def shift (d : Nat) (t : Token) : Token :=
  { t with pos := t.pos + d }

theorem Cuts.eq_nil (h : Cuts pos [] pieces) : pieces = [] := by
  cases h with
  | nil => rfl
  | cons hfirst => cases hfirst

theorem Cuts.shift (h : Cuts pos cs pieces) (d : Nat) :
    Cuts (pos + d) cs (pieces.map (·.shift d)) := by
  induction h with
  | nil => exact .nil
  | @cons pos cs lexeme k pieces hfirst _ ih =>
    rw [Nat.add_right_comm] at ih
    exact .cons hfirst ih

/-- A line feed takes all layout that follows it. -/
theorem firstLexeme_newline (cs : List Char) :
    firstLexeme ('\n' :: cs) = some (.newline, '\n' :: cs.takeWhile isLayout) := by
  rfl

/-- A line end that takes the whole first text takes the line feed and more layout as well. -/
theorem firstLexeme_newline_append (h : firstLexeme cs = some (.newline, cs)) (ds : List Char) :
    firstLexeme (cs ++ '\n' :: ds) = some (.newline, cs ++ '\n' :: ds.takeWhile isLayout) := by
  obtain ⟨c, l, rfl⟩ := List.exists_cons_of_ne_nil (ne_nil_of_firstLexeme h)
  have hlexeme := lexeme_of_firstLexeme h
  rw [Kind.lexeme] at hlexeme
  obtain ⟨hc, hall⟩ := head_of_runLexeme hlexeme
  obtain rfl : c = '\n' := by simpa using hc
  rw [List.cons_append, firstLexeme_newline, List.takeWhile_append_of_pos hall]
  rfl

theorem length_le_of_firstLexeme (h : firstLexeme cs = some (k, lexeme)) :
    lexeme.length ≤ cs.length := by
  obtain ⟨rest, hrest⟩ := k.lexeme_front cs
  rw [lexeme_of_firstLexeme h] at hrest
  rw [hrest, List.length_append]
  exact Nat.le_add_right _ _

/-- Every piece starts in its text. -/
theorem Cuts.pos_le (h : Cuts pos cs pieces) :
    ∀ t ∈ pieces, ∃ offset : Nat, t.pos = offset ∧ offset ≤ pos + cs.length := by
  induction h with
  | nil => exact List.forall_mem_nil _
  | @cons pos cs lexeme k pieces hfirst _ ih =>
    refine List.forall_mem_cons.2 ⟨⟨pos, rfl, Nat.le_add_right _ _⟩, fun t ht => ?_⟩
    obtain ⟨offset, hoffset, hle⟩ := ih t ht
    have hlexeme := length_le_of_firstLexeme hfirst
    rw [List.length_drop] at hle
    exact ⟨offset, hoffset, by omega⟩

/-- Every token starts in its source. -/
theorem pos_le_of_tokenize {source : String} {ts : List Token} (h : tokenize source = .ok ts) :
    ∀ t ∈ ts, ∃ offset : Nat, t.pos = offset ∧ offset ≤ source.length := by
  obtain ⟨pieces, hcuts, rfl⟩ := cuts_of_tokenize h
  intro t ht
  rw [← String.length_toList, ← Nat.zero_add source.toList.length]
  exact hcuts.pos_le t (List.mem_filter.1 ht).1

/-- A text in front of a line feed is cut as it is by itself, but for a line end at its end, which
becomes one with the line feed. -/
theorem Cuts.append {n : Token} {rest : List Token} (h : Cuts pos cs pieces)
    (hfree : ∀ t ∈ pieces, t.kind = .string → t.EndsFreely)
    (htail : Cuts (pos + cs.length) ('\n' :: ds) (n :: rest)) :
    ∃ front lines m, pieces = front ++ lines ∧ (∀ t ∈ lines, t.kind = .newline) ∧
      m.kind = .newline ∧ Cuts pos (cs ++ '\n' :: ds) (front ++ m :: rest) := by
  induction h with
  | @nil pos =>
    refine ⟨[], [], n, rfl, List.forall_mem_nil _, ?_, htail⟩
    cases htail with
    | cons hfirst =>
      rw [firstLexeme_newline] at hfirst
      exact (Prod.mk.inj (Option.some.inj hfirst)).1.symm
  | @cons pos cs lexeme k pieces hfirst hrest ih =>
    obtain ⟨hpiece, hfree⟩ := List.forall_mem_cons.1 hfree
    by_cases hend : k = .newline ∧ lexeme = cs
    · obtain ⟨rfl, rfl⟩ := hend
      rw [List.drop_length] at hrest
      obtain rfl := hrest.eq_nil
      cases htail with
      | @cons _ _ lexeme' k' _ hfirst' hrest' =>
        rw [firstLexeme_newline] at hfirst'
        obtain ⟨rfl, rfl⟩ := Prod.mk.inj (Option.some.inj hfirst')
        refine ⟨[], [_], _, rfl, List.forall_mem_singleton.2 rfl, rfl,
          .cons (firstLexeme_newline_append hfirst ds) ?_⟩
        rw [List.length_append, ← Nat.add_assoc, List.drop_length_add_append]
        exact hrest'
    · have hstay := firstLexeme_append (t := ⟨k, String.ofList lexeme, pos⟩)
        (by rw [String.toList_ofList]; exact hfirst) hpiece
        (fun hk htext => hend ⟨hk, String.toList_ofList.symm.trans htext⟩) ds
      rw [String.toList_ofList] at hstay
      have hle := length_le_of_firstLexeme hfirst
      have hpos : pos + lexeme.length + (cs.drop lexeme.length).length = pos + cs.length := by
        rw [List.length_drop]
        omega
      obtain ⟨front, lines, m, rfl, hlines, hm, hcuts⟩ := ih hfree (hpos ▸ htail)
      refine ⟨_ :: front, lines, m, rfl, hlines, hm, .cons hstay ?_⟩
      rw [List.drop_append_of_le_length hle]
      exact hcuts

/-- A lexeme that begins with layout is a line end or white space, and consists of layout. -/
theorem kind_of_layout {c : Char} {l : List Char} (h : k.lexeme cs = c :: l)
    (hc : isLayout c = true) :
    (k = .newline ∨ k = .whitespace) ∧ ∀ d ∈ c :: l, isLayout d = true := by
  have hlead := Kind.leads_of_lexeme h
  have hkind : ∀ k ∈ Kind.all, k.leads c = true → k = .newline ∨ k = .whitespace := by
    simp only [isLayout, Bool.or_eq_true, decide_eq_true_eq] at hc
    rcases hc with (((rfl | rfl) | rfl) | rfl) | rfl <;> decide
  refine ⟨hkind k (Kind.mem_all k) hlead, ?_⟩
  rcases hkind k (Kind.mem_all k) hlead with rfl | rfl
  · exact List.forall_mem_cons.2 ⟨hc, (head_of_runLexeme h).2⟩
  · intro d hd
    have hspace := all_of_takeWhile h d hd
    simp only [isSpace, Bool.or_eq_true, decide_eq_true_eq] at hspace
    rcases hspace with rfl | rfl <;> decide

/-- The layout at the start of a text is cut into line ends and white space. -/
theorem Cuts.layout (h : Cuts pos cs pieces) :
    ∃ blanks rest, pieces = blanks ++ rest ∧
      (∀ t ∈ blanks, t.kind = .newline ∨ t.kind = .whitespace) ∧
      Cuts (pos + (cs.takeWhile isLayout).length) (cs.dropWhile isLayout) rest := by
  induction h with
  | nil => exact ⟨[], [], rfl, List.forall_mem_nil _, .nil⟩
  | @cons pos cs lexeme k pieces hfirst hrest ih =>
    obtain ⟨c, l, rfl⟩ := List.exists_cons_of_ne_nil (ne_nil_of_firstLexeme hfirst)
    have hlexeme := lexeme_of_firstLexeme hfirst
    obtain ⟨after, rfl⟩ : ∃ after, cs = c :: l ++ after := hlexeme ▸ k.lexeme_front cs
    by_cases hc : isLayout c = true
    · obtain ⟨hkind, hall⟩ := kind_of_layout hlexeme hc
      obtain ⟨blanks, rest, rfl, hblanks, hcuts⟩ := ih
      rw [List.drop_left, Nat.add_assoc, ← List.length_append] at hcuts
      refine ⟨_ :: blanks, rest, rfl, List.forall_mem_cons.2 ⟨hkind, hblanks⟩, ?_⟩
      rw [List.takeWhile_append_of_pos hall, List.dropWhile_append_of_pos hall]
      exact hcuts
    · refine ⟨[], _, rfl, List.forall_mem_nil _, ?_⟩
      rw [List.cons_append, List.takeWhile_cons_of_neg hc, List.dropWhile_cons_of_neg hc]
      exact .cons hfirst hrest

/-- A line feed in front of a text takes the layout at its start. -/
theorem Cuts.newline (h : Cuts 0 ds pieces) (pos : Nat) :
    ∃ blanks n rest, pieces = blanks ++ rest ∧
      (∀ t ∈ blanks, t.kind = .newline ∨ t.kind = .whitespace) ∧
      Cuts pos ('\n' :: ds) (n :: rest.map (·.shift (pos + 1))) := by
  obtain ⟨blanks, rest, rfl, hblanks, hcuts⟩ := h.layout
  refine ⟨blanks, _, rest, rfl, hblanks, .cons (firstLexeme_newline ds) ?_⟩
  have hdrop := congrArg (List.drop (ds.takeWhile isLayout).length)
    (List.takeWhile_append_dropWhile (p := isLayout) (l := ds))
  rw [List.drop_left] at hdrop
  rw [List.length_cons, List.drop_succ_cons, ← hdrop]
  have hshift := hcuts.shift (pos + 1)
  rwa [Nat.zero_add, Nat.add_comm, Nat.add_right_comm, Nat.add_assoc] at hshift

/-! ## Tokens of joined texts -/

/-- The pieces of a source that are kept are its tokens. -/
theorem Cuts.tokenize_eq {source : String} (h : Cuts 0 source.toList pieces) :
    tokenize source = .ok (pieces.filter (·.kind.isKept false)) := by
  rw [tokenize, tokenizeWith, h.scan_eq]

theorem filter_isKept_shift (ts : List Token) (d : Nat) :
    (ts.map (·.shift d)).filter (·.kind.isKept false) =
      (ts.filter (·.kind.isKept false)).map (·.shift d) :=
  List.filter_map

/-- **Two texts that are joined by a line feed have the tokens of both.**  The line ends at the end
of the first text and at the start of the second become one with the line feed. -/
theorem tokenize_join {first second : String} {ts us : List Token}
    (hfirst : tokenize first = .ok ts) (hfree : ∀ t ∈ ts, t.kind = .string → t.EndsFreely)
    (hsecond : tokenize second = .ok us) :
    ∃ front lines n lines' back, ts = front ++ lines ∧ us = lines' ++ back ∧
      (∀ t ∈ lines, t.kind = .newline) ∧ (∀ t ∈ lines', t.kind = .newline) ∧ n.kind = .newline ∧
      tokenize (first ++ "\n" ++ second) =
        .ok (front ++ n :: back.map (·.shift (first.length + 1))) := by
  obtain ⟨pieces, hcuts, rfl⟩ := cuts_of_tokenize hfirst
  obtain ⟨pieces', hcuts', rfl⟩ := cuts_of_tokenize hsecond
  obtain ⟨blanks, n, rest, rfl, hblanks, htail⟩ := hcuts'.newline first.length
  have hfree' : ∀ t ∈ pieces, t.kind = .string → t.EndsFreely := fun t ht hk =>
    hfree t (List.mem_filter.2 ⟨ht, by rw [hk]; rfl⟩) hk
  rw [← String.length_toList, ← Nat.zero_add first.toList.length] at htail
  obtain ⟨front, lines, m, rfl, hlines, hm, hjoined⟩ := hcuts.append hfree' htail
  refine ⟨front.filter (·.kind.isKept false), lines.filter (·.kind.isKept false), m,
    blanks.filter (·.kind.isKept false), rest.filter (·.kind.isKept false), List.filter_append _ _,
    List.filter_append _ _, fun t ht => hlines t (List.mem_filter.1 ht).1, ?_, hm, ?_⟩
  · intro t ht
    obtain ⟨ht, hkept⟩ := List.mem_filter.1 ht
    rcases hblanks t ht with hk | hk
    · exact hk
    · rw [hk] at hkept
      cases hkept
  · have hsource : first.toList ++ '\n' :: second.toList = (first ++ "\n" ++ second).toList := by
      simp
    rw [hsource] at hjoined
    rw [hjoined.tokenize_eq, List.filter_append, List.filter_cons_of_pos (by rw [hm]; rfl),
      filter_isKept_shift, Nat.zero_add, String.length_toList]

end Juxta.Token
