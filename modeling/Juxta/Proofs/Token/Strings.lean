import Juxta.Proofs.Token.Tiling

/-!
# The bodies of strings

What stands between the two quotes of a string that was cut from a source.  Every quote in it stands
directly behind a backslash, so that no quote of it can be taken for the closing one; and only the
last string of a source can end in a backslash that pairs with its closing quote.

## What is here

* `backslash_of_throughFreeQuote` — a quote that does not close a string stands behind a backslash.
* `parts_of_stringLexeme` — the two ways in which a string ends.
* `Lexical.text_of_string` — the body of a string has no free quote.
* `Cuts.strings` — a string that another one follows ends freely.
-/

set_option autoImplicit false
namespace Juxta.Token

variable {cs ds body l : List Char} {pos : Nat} {pieces : List Token} {t : Token}

/-! ## Quotes that do not close a string -/

/-- A front of a text without free quotes has none. -/
theorem throughFreeQuote_eq_none_of_append (h : throughFreeQuote (cs ++ ds) = none) :
    throughFreeQuote cs = none := by
  cases hcs : throughFreeQuote cs with
  | none => rfl
  | some body =>
    rw [throughFreeQuote_append hcs] at h
    cases h

/-- A quote that is not free stands behind a backslash. -/
theorem backslash_of_throughFreeQuote (h : throughFreeQuote (cs ++ '"' :: ds) = none) :
    ∃ front, cs = front ++ ['\\'] := by
  fun_induction throughFreeQuote cs with
  | case1 => cases h
  | case2 rest => cases h
  | case3 rest ih =>
    rw [List.cons_append, List.cons_append, throughFreeQuote, Option.map_eq_none_iff] at h
    obtain ⟨front, rfl⟩ := ih h
    exact ⟨'\\' :: '\n' :: front, rfl⟩
  | case4 c rest hc ih =>
    rw [List.cons_append, List.cons_append, throughFreeQuote, Option.map_eq_none_iff] at h
    · obtain ⟨front, rfl⟩ := ih h
      exact ⟨'\\' :: c :: front, rfl⟩
    · exact hc
  | case5 c rest hquote hfeed hpair ih =>
    by_cases hc : c = '\\'
    · -- a backslash here is the last character
      cases rest with
      | nil => exact ⟨[], by rw [hc]; rfl⟩
      | cons e rest => exact (hpair e rest hc rfl).elim
    · rw [List.cons_append, throughFreeQuote, Option.map_eq_none_iff] at h
      · obtain ⟨front, rfl⟩ := ih h
        exact ⟨c :: front, rfl⟩
      · exact hquote
      · exact fun _ hc' => absurd hc' hc
      · exact fun _ _ hc' => absurd hc' hc

/-- Before the quote that closes a string, there is no free quote. -/
theorem throughFreeQuote_of_concat (h : throughFreeQuote (body ++ ['"']) = some (body ++ ['"'])) :
    throughFreeQuote body = none := by
  cases hbody : throughFreeQuote body with
  | none => rfl
  | some front =>
    obtain ⟨rest, hrest⟩ := throughFreeQuote_front hbody
    rw [throughFreeQuote_append hbody] at h
    have hlength := congrArg List.length (Option.some.inj h)
    have hfront := congrArg List.length hrest
    rw [List.length_append] at hlength hfront
    rw [List.length_singleton] at hlength
    omega

/-! ## The strings of a source -/

/-- The text up to the last quote ends in one. -/
theorem throughLastQuote_concat (h : throughLastQuote cs ≠ []) :
    ∃ body, throughLastQuote cs = body ++ ['"'] := by
  rw [throughLastQuote] at h ⊢
  cases hlast : cs.reverse.dropWhile (· ≠ '"') with
  | nil => exact absurd (by rw [hlast]; rfl) h
  | cons c rest =>
    have hhead := List.head?_dropWhile_not (· ≠ '"') cs.reverse
    rw [hlast] at hhead
    obtain rfl : c = '"' := by simpa using hhead
    exact ⟨rest.reverse, List.reverse_cons⟩

/-- A string ends at a free quote; or nothing behind it is free, and it ends at the last quote. -/
theorem parts_of_stringLexeme (h : stringLexeme cs = l) (hl : l ≠ []) :
    ∃ body after, l = '"' :: (body ++ ['"']) ∧ cs = l ++ after ∧
      (throughFreeQuote (body ++ ['"']) = some (body ++ ['"']) ∨
        throughFreeQuote body = none ∧ '"' ∉ after) := by
  rw [stringLexeme.eq_def] at h
  split at h
  · next rest =>
    split at h
    · next found hfree =>
      obtain ⟨body, rfl⟩ := throughFreeQuote_concat hfree
      obtain ⟨after, rfl⟩ := throughFreeQuote_front hfree
      exact ⟨body, after, h.symm, by rw [← h]; rfl, .inl (throughFreeQuote_self hfree)⟩
    · next hfree =>
      obtain ⟨after, hrest, hafter⟩ := exists_behind_lastQuote rest
      split at h
      · exact absurd h.symm hl
      · next hne =>
        obtain ⟨body, hbody⟩ := throughLastQuote_concat fun hnil => hne hnil
        rw [hbody] at h hrest
        refine ⟨body, after, h.symm, by rw [← h, hrest]; rfl, .inr ⟨?_, hafter⟩⟩
        rw [hrest, List.append_assoc] at hfree
        exact throughFreeQuote_eq_none_of_append hfree
  · exact absurd h.symm hl

/-- A string has a body, in which no quote is free. -/
theorem Lexical.text_of_string (h : t.Lexical) (hk : t.kind = .string) :
    ∃ body, t.text.toList = '"' :: (body ++ ['"']) ∧ throughFreeQuote body = none := by
  obtain ⟨cs, hcs, hne⟩ := h.exists_lexeme hk
  obtain ⟨body, after, htext, -, hfree | ⟨hfree, -⟩⟩ := parts_of_stringLexeme hcs hne
  · exact ⟨body, htext, throughFreeQuote_of_concat hfree⟩
  · exact ⟨body, htext, hfree⟩

/-- **Only the last string of a source can end in a quote that a backslash pairs with.** -/
theorem Cuts.strings (h : Cuts pos cs pieces) :
    pieces.Pairwise fun t u => t.kind = .string → u.kind = .string → t.EndsFreely := by
  induction h with
  | nil => exact .nil
  | @cons pos cs lexeme k pieces hfirst hrest ih =>
    refine .cons (fun u hu hk hku => ?_) ih
    have hk : k = .string := hk
    subst hk
    obtain ⟨body, after, rfl, rfl, hfree | ⟨-, hafter⟩⟩ :=
      parts_of_stringLexeme (lexeme_of_firstLexeme hfirst) (ne_nil_of_firstLexeme hfirst)
    · rw [EndsFreely, String.toList_ofList]
      exact hfree
    · -- the string that follows would be cut from a text without quotes
      rw [List.drop_left] at hrest
      obtain ⟨body', hu', -⟩ := (hrest.lexical u hu).text_of_string hku
      refine absurd ?_ hafter
      rw [(cuts_iff_scansTo.1 hrest).eq_append, List.append_nil, spelled, List.mem_flatMap]
      exact ⟨u, hu, hu' ▸ List.mem_cons_self⟩

end Juxta.Token
