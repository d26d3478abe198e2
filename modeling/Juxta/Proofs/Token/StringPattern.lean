import Juxta.Parser.Grammar
import Juxta.Proofs.Token.Layout
import Mathlib.Data.List.Basic
import Mathlib.Data.List.Induction

/-!
# Strings as matches of a pattern

The string class can be written down as a regular expression, `"(?:\\.|[^"])*"`: between two double
quotes any number of items, each of which is a backslash with the character behind it, or a single
character that is no double quote.  The point stands for all characters but the line feed.

That expression is ambiguous.  A backslash is an item by itself as well, so that a text with many
backslashes can be divided in very many ways, and what is matched depends on the order in which a
search tries them: an item rather than the end of the repetition, and a pair rather than a single
character.  This file defines that order and shows that the search always comes to one of two
places, which a single walk over the text finds.

## What is here

* `Pattern`, `Pattern.rests` — patterns, and all their matches in the order of preference;
  `Pattern.rests_star` is the law of repetition.
* `stringPattern` — the expression above.
* `isSecondHalf`, `freeQuotes`, `closingQuote?` — the walk: which characters are the second halves
  of pairs, and which double quote closes a string.
* `head?_rests_stringBody` — the search comes to the closing quote.
* `string_closes_at_closingQuote` — what that means for the tokens of a source.
-/

set_option autoImplicit false
namespace Juxta.Token

/-! ## Patterns -/

/-- A pattern of characters. -/
inductive Pattern where
  /-- One character of a class. -/
  | char (p : Char → Bool)
  /-- One pattern, and another one behind it. -/
  | seq (first second : Pattern)
  /-- One of two patterns, preferably the first. -/
  | alt (first second : Pattern)
  /-- A pattern any number of times, preferably once more. -/
  | star (item : Pattern)

namespace Pattern

/-- What is left of a text behind at most `limit` items, more items first.  An item that takes
nothing is not repeated. -/
def repeats (item : List Char → List (List Char)) : (limit : Nat) → List Char → List (List Char)
  | 0, cs => [cs]
  | limit + 1, cs =>
    ((item cs).filter fun rest => rest.length < cs.length).flatMap (repeats item limit) ++ [cs]

/-- What is left of a text behind every match of a pattern at its front, in the order in which a
search that backtracks comes to the matches. -/
def rests : Pattern → List Char → List (List Char)
  | char _, [] => []
  | char p, c :: cs => if p c then [cs] else []
  | seq first second, cs => (first.rests cs).flatMap second.rests
  | alt first second, cs => first.rests cs ++ second.rests cs
  | star item, cs => repeats item.rests cs.length cs

/-- The text that a pattern matches at the front of another one: its first match. -/
def firstMatch? (pattern : Pattern) (cs : List Char) : Option (List Char) :=
  (pattern.rests cs).head?.map fun rest => cs.take (cs.length - rest.length)

/-- A limit that exceeds the length of the text is none. -/
theorem repeats_eq_repeats (item : List Char → List (List Char)) {limit limit' : Nat}
    {cs : List Char} (h : cs.length ≤ limit) (h' : cs.length ≤ limit') :
    repeats item limit cs = repeats item limit' cs := by
  induction limit generalizing limit' cs with
  | zero =>
    have hcs : cs = [] := List.length_eq_zero_iff.1 (by omega)
    cases limit' <;> simp [repeats, hcs]
  | succ limit ih =>
    cases limit' with
    | zero =>
      have hcs : cs = [] := List.length_eq_zero_iff.1 (by omega)
      simp [repeats, hcs]
    | succ limit' =>
      rw [repeats, repeats]
      congr 1
      refine List.flatMap_congr fun rest hrest => ?_
      have hlt : rest.length < cs.length := by simpa using (List.mem_filter.1 hrest).2
      exact ih (by omega) (by omega)

/-- **The law of repetition**: an item and then the repetition, or else nothing. -/
theorem rests_star (item : Pattern) (cs : List Char) :
    (star item).rests cs =
      ((item.rests cs).filter fun rest => rest.length < cs.length).flatMap (star item).rests ++
        [cs] := by
  have hcs : (star item).rests cs = repeats item.rests (cs.length + 1) cs :=
    repeats_eq_repeats _ (Nat.le_refl _) (Nat.le_succ _)
  rw [hcs, repeats]
  congr 1
  refine List.flatMap_congr fun rest hrest => ?_
  have hlt : rest.length < cs.length := by simpa using (List.mem_filter.1 hrest).2
  exact repeats_eq_repeats _ (by omega) (Nat.le_refl _)

end Pattern

/-- The items of a string: a backslash and any character but a line feed, or a character that is no
double quote. -/
def stringItem : Pattern :=
  .alt (.seq (.char (· = '\\')) (.char (· ≠ '\n'))) (.char (· ≠ '"'))

/-- What follows the opening quote of a string: items, and the closing quote. -/
def stringBody : Pattern :=
  .seq (.star stringItem) (.char (· = '"'))

/-- The pattern of strings. -/
def stringPattern : Pattern :=
  .seq (.char (· = '"')) stringBody

/-! ## The walk -/

/-- Whether a text ends in a backslash that pairs with what comes next.  It does not if it is the
second half of a pair itself. -/
def pairsNext (cs : List Char) : Bool :=
  cs.foldl (fun pairs c => c = '\\' && !pairs) false

/-- Whether the character at an index is the second half of a pair.  No line feed is. -/
def isSecondHalf (cs : List Char) (i : Nat) : Bool :=
  pairsNext (cs.take i) && cs[i]?.any (· ≠ '\n')

/-- The indices of all double quotes. -/
def quotes (cs : List Char) : List Nat :=
  (List.range cs.length).filter fun i => cs[i]? = some '"'

/-- The indices of the double quotes that are not the second half of a pair. -/
def freeQuotes (cs : List Char) : List Nat :=
  (quotes cs).filter fun i => !isSecondHalf cs i

/-- The index of the double quote that closes a string: the first free one, or the last one of all
if none is free. -/
def closingQuote? (cs : List Char) : Option Nat :=
  (freeQuotes cs).head?.or (quotes cs).getLast?

variable {c d : Char} {cs : List Char}

theorem quotes_append (cs ds : List Char) :
    quotes (cs ++ ds) = quotes cs ++ (quotes ds).map (cs.length + ·) := by
  have hfront : (List.range cs.length).filter (fun i => (cs ++ ds)[i]? = some '"') = quotes cs :=
    List.filter_congr fun i hi => by rw [List.getElem?_append_left (List.mem_range.1 hi)]
  rw [quotes, List.length_append, List.range_add, List.filter_append, hfront, List.filter_map]
  simp [Function.comp_def, quotes, List.getElem?_append_right]

theorem quotes_singleton (c : Char) : quotes [c] = if c = '"' then [0] else [] := by
  by_cases hc : c = '"' <;> simp [quotes, hc]

theorem quotes_cons (c : Char) (cs : List Char) :
    quotes (c :: cs) = (if c = '"' then [0] else []) ++ (quotes cs).map (· + 1) := by
  rw [← List.singleton_append, quotes_append, quotes_singleton]
  simp [Nat.add_comm]

theorem mem_quotes {i : Nat} : i ∈ quotes cs ↔ cs[i]? = some '"' := by
  rw [quotes, List.mem_filter, List.mem_range, decide_eq_true_eq, and_iff_right_iff_imp]
  exact fun h => (List.getElem?_eq_some_iff.1 h).1

theorem quotes_eq_nil_iff : quotes cs = [] ↔ '"' ∉ cs := by
  rw [List.eq_nil_iff_forall_not_mem, List.mem_iff_getElem?]
  simp [mem_quotes]

theorem lt_length_of_closingQuote? {i : Nat} (h : closingQuote? cs = some i) : i < cs.length := by
  have hmem : i ∈ quotes cs := by
    rcases Option.or_eq_some_iff.1 h with hfree | ⟨-, hlast⟩
    · exact (List.mem_filter.1 (List.mem_of_head? hfree)).1
    · exact List.mem_of_getLast? hlast
  exact (List.getElem?_eq_some_iff.1 (mem_quotes.1 hmem)).1

theorem closingQuote?_eq_none_iff : closingQuote? cs = none ↔ '"' ∉ cs := by
  rw [← quotes_eq_nil_iff, closingQuote?]
  constructor
  · intro h
    simpa using (Option.or_eq_none_iff.1 h).2
  · intro h
    simp [freeQuotes, h]

/-- A character that is neither a backslash nor a double quote is walked over. -/
theorem freeQuotes_cons (hc : c ≠ '\\') (hquote : c ≠ '"') :
    freeQuotes (c :: cs) = (freeQuotes cs).map (· + 1) := by
  have hhalf : ∀ i, isSecondHalf (c :: cs) (i + 1) = isSecondHalf cs i := fun i => by
    simp [isSecondHalf, pairsNext, hc]
  rw [freeQuotes, quotes_cons, if_neg hquote, List.nil_append, List.filter_map, freeQuotes]
  simp [Function.comp_def, hhalf]

/-- A free quote is the first one at its own place. -/
theorem head?_freeQuotes_quote : (freeQuotes ('"' :: cs)).head? = some 0 := by
  rw [freeQuotes, quotes_cons, if_pos rfl, List.singleton_append, List.filter_cons]
  simp [isSecondHalf, pairsNext]

theorem quotes_pair (c : Char) (cs : List Char) :
    quotes ('\\' :: c :: cs) = (if c = '"' then [1] else []) ++ (quotes cs).map (· + 2) := by
  rw [quotes_cons, quotes_cons]
  by_cases hc : c = '"' <;> simp [hc]

/-- Behind a backslash one character is walked over, whatever it is. -/
theorem freeQuotes_pair : freeQuotes ('\\' :: c :: cs) = (freeQuotes cs).map (· + 2) := by
  have hhalf : ∀ i, isSecondHalf ('\\' :: c :: cs) (i + 2) = isSecondHalf cs i := fun i => by
    simp [isSecondHalf, pairsNext]
  have hsecond : (if c = '"' then [1] else []).filter
      (fun i => !isSecondHalf ('\\' :: c :: cs) i) = [] := by
    by_cases hc : c = '"' <;> simp [hc, isSecondHalf, pairsNext]
  rw [freeQuotes, quotes_pair, List.filter_append, hsecond, List.nil_append, List.filter_map,
    freeQuotes]
  simp [Function.comp_def, hhalf]

theorem closingQuote?_cons (hc : c ≠ '\\') (hquote : c ≠ '"') :
    closingQuote? (c :: cs) = (closingQuote? cs).map (· + 1) := by
  rw [closingQuote?, freeQuotes_cons hc hquote, quotes_cons, if_neg hquote, closingQuote?]
  simp [Option.map_or]

/-- A double quote that a backslash pairs with closes a string only if there is none behind it. -/
theorem closingQuote?_pair (c : Char) (cs : List Char) :
    closingQuote? ('\\' :: c :: cs) =
      ((closingQuote? cs).map (· + 2)).or (if c = '"' then some 1 else none) := by
  rw [closingQuote?, freeQuotes_pair, quotes_pair, closingQuote?, List.head?_map,
    List.getLast?_append, List.getLast?_map, Option.map_or, Option.or_assoc]
  by_cases hc : c = '"' <;> simp [hc]

/-! ## The search -/

theorem rests_stringBody (cs : List Char) :
    stringBody.rests cs =
      ((stringItem.rests cs).filter fun rest => rest.length < cs.length).flatMap
          stringBody.rests ++
        (Pattern.char (· = '"')).rests cs := by
  have hbody : ∀ ds, stringBody.rests ds =
      ((Pattern.star stringItem).rests ds).flatMap (Pattern.char (· = '"')).rests := fun _ => rfl
  rw [hbody, Pattern.rests_star, List.flatMap_append, List.flatMap_assoc]
  simp [← hbody]

theorem rests_stringBody_quote : stringBody.rests ('"' :: cs) = [cs] := by
  rw [rests_stringBody]
  simp [stringItem, Pattern.rests]

/-- Behind a backslash, the search first tries to pair it. -/
theorem rests_stringBody_pair (hc : c ≠ '\n') :
    stringBody.rests ('\\' :: c :: cs) = stringBody.rests cs ++ stringBody.rests (c :: cs) := by
  rw [rests_stringBody]
  simp only [stringItem, Pattern.rests, hc, ne_eq, decide_not, decide_true, decide_false,
    Bool.not_false, Char.reduceEq, ↓reduceIte, Bool.false_eq_true, List.flatMap_cons,
    List.flatMap_nil, List.append_nil, List.cons_append, List.nil_append, List.length_cons,
    Nat.lt_add_one, Nat.lt_succ_of_lt, List.filter_cons_of_pos, List.filter_nil]

/-- Where there is no pair, the search takes a single character. -/
theorem rests_stringBody_cons (hquote : c ≠ '"')
    (hpair : c = '\\' → ∀ d ∈ cs.head?, d = '\n') :
    stringBody.rests (c :: cs) = stringBody.rests cs := by
  rw [rests_stringBody]
  cases cs with
  | nil => simp [stringItem, Pattern.rests, hquote]
  | cons d cs =>
    by_cases hc : c = '\\'
    · simp [stringItem, Pattern.rests, hc, hpair hc d rfl]
    · simp [stringItem, Pattern.rests, hc, hquote]

/-- **The search comes to the closing quote.**  By induction on the length: where a pair is tried
first, the search looks at the backslash alone only if there is no double quote behind the pair. -/
theorem head?_rests_stringBody (cs : List Char) :
    (stringBody.rests cs).head? = (closingQuote? cs).map fun i => cs.drop (i + 1) := by
  induction hn : cs.length using Nat.strongRecOn generalizing cs with
  | ind n ih =>
    obtain _ | ⟨c, cs⟩ := cs
    · rfl
    rw [List.length_cons] at hn
    by_cases hquote : c = '"'
    · rw [hquote, rests_stringBody_quote, closingQuote?, head?_freeQuotes_quote]
      rfl
    by_cases hc : c = '\\'
    · subst hc
      obtain _ | ⟨d, cs⟩ := cs
      · rfl
      rw [List.length_cons] at hn
      have hcs := ih cs.length (by omega) cs rfl
      by_cases hd : d = '\n'
      · -- there is no pair to try, but the walk passes over both characters all the same
        rw [rests_stringBody_cons hquote (by simp [hd]),
          rests_stringBody_cons (by simp [hd]) (by simp [hd]), hcs, closingQuote?_pair]
        simp [hd, Function.comp_def]
      · rw [rests_stringBody_pair hd, List.head?_append, hcs,
          ih (cs.length + 1) (by omega) (d :: cs) rfl, closingQuote?_pair]
        cases hclose : closingQuote? cs with
        | some i => simp
        | none =>
          -- the pair has failed, so that its second half is the last double quote, if it is one
          have hnone := closingQuote?_eq_none_iff.1 hclose
          by_cases hd : d = '"'
          · simp [hd, closingQuote?, head?_freeQuotes_quote]
          · have hnone' : closingQuote? (d :: cs) = none :=
              closingQuote?_eq_none_iff.2 (by simp [hnone, Ne.symm hd])
            simp [hd, hnone']
    · rw [rests_stringBody_cons hquote fun h => absurd h hc, ih cs.length (by omega) cs rfl,
        closingQuote?_cons hc hquote]
      simp [Function.comp_def]

/-- **The first match of the string pattern** goes from the opening quote to the closing one. -/
theorem firstMatch?_stringPattern (rest : List Char) :
    stringPattern.firstMatch? ('"' :: rest) =
      (closingQuote? rest).map fun i => '"' :: rest.take (i + 1) := by
  have hrests : stringPattern.rests ('"' :: rest) = stringBody.rests rest := by
    simp [stringPattern, Pattern.rests]
  rw [Pattern.firstMatch?, hrests, head?_rests_stringBody, Option.map_map]
  refine Option.map_congr fun i hi => ?_
  have hlt := lt_length_of_closingQuote? hi
  have hlength : ('"' :: rest).length - (rest.drop (i + 1)).length = i + 1 + 1 := by
    rw [List.length_cons, List.length_drop]
    omega
  rw [Function.comp_apply, hlength, List.take_succ_cons]

/-! ## The lexer -/

theorem throughFreeQuote_eq (cs : List Char) :
    throughFreeQuote cs = (freeQuotes cs).head?.map fun i => cs.take (i + 1) := by
  fun_induction throughFreeQuote cs with
  | case1 => rfl
  | case2 rest => simp [head?_freeQuotes_quote]
  | case3 rest ih => simp [ih, freeQuotes_pair, Function.comp_def]
  | case4 c rest _ ih => simp [ih, freeQuotes_pair, Function.comp_def]
  | case5 c rest hquote hfeed hpair ih =>
    by_cases hc : c = '\\'
    · obtain rfl : rest = [] := by
        cases rest with
        | nil => rfl
        | cons d rest => exact absurd rfl (hpair d rest hc)
      simp [hc, throughFreeQuote]
      rfl
    · simp [ih, freeQuotes_cons hc hquote, Function.comp_def]

theorem throughLastQuote_eq (cs : List Char) :
    throughLastQuote cs = ((quotes cs).getLast?.map fun i => cs.take (i + 1)).getD [] := by
  induction cs using List.reverseRecOn with
  | nil => rfl
  | append_singleton cs c ih =>
    rw [quotes_append, quotes_singleton]
    by_cases hc : c = '"'
    · simp [hc, throughLastQuote, List.take_of_length_le]
    · have hlast : throughLastQuote (cs ++ [c]) = throughLastQuote cs :=
        throughLastQuote_append_of_notMem (by simp [Ne.symm hc])
      rw [hlast, ih, if_neg hc, List.map_nil, List.append_nil]
      congr 1
      refine Option.map_congr fun i hi => ?_
      have hlt := (List.getElem?_eq_some_iff.1 (mem_quotes.1 (List.mem_of_getLast? hi))).1
      rw [List.take_append_of_le_length (by omega)]

/-- The string class goes from the opening quote to the closing one. -/
theorem stringLexeme_quote (rest : List Char) :
    stringLexeme ('"' :: rest) =
      ((closingQuote? rest).map fun i => '"' :: rest.take (i + 1)).getD [] := by
  rw [stringLexeme, throughFreeQuote_eq, throughLastQuote_eq, closingQuote?]
  cases hfree : (freeQuotes rest).head? with
  | some i => simp
  | none =>
    cases hlast : (quotes rest).getLast? with
    | none => simp
    | some i =>
      have hmem := mem_quotes.1 (List.mem_of_getLast? hlast)
      obtain ⟨c, cs, rfl⟩ : ∃ c cs, rest = c :: cs := by
        cases rest with
        | nil => simp at hmem
        | cons c cs => exact ⟨c, cs, rfl⟩
      simp

/-- **The lexer takes the first match of the pattern** where a double quote stands. -/
theorem firstLexeme_quote (rest : List Char) :
    firstLexeme ('"' :: rest) = (stringPattern.firstMatch? ('"' :: rest)).map (Kind.string, ·) := by
  have hlexeme := stringLexeme_quote rest
  rw [firstMatch?_stringPattern]
  cases hclose : closingQuote? rest with
  | none =>
    rw [closingQuote?_eq_none_iff] at hclose
    rw [Option.map_none, Option.map_none, firstLexeme_eq_none_iff_isBlocked]
    simp [isBlocked, hclose]
  | some i =>
    rw [hclose, Option.map_some, Option.getD_some] at hlexeme
    refine firstLexeme_of_lexeme hlexeme (List.cons_ne_nil _ _) ?_
    simp only [List.head?_cons, Option.mem_some_iff, forall_eq']
    decide

/-! ## Literals -/

/-- A text without free quotes that does not pair what comes next ends at the quote behind it. -/
theorem closingQuote?_append {s : List Char} (hfree : freeQuotes s = [])
    (hpairs : pairsNext s = false) (after : List Char) :
    closingQuote? (s ++ '"' :: after) = some s.length := by
  have hfront :
      (quotes s).filter (fun i => !isSecondHalf (s ++ '"' :: after) i) = freeQuotes s := by
    refine List.filter_congr fun i hi => ?_
    have hlt := (List.getElem?_eq_some_iff.1 (mem_quotes.1 hi)).1
    rw [isSecondHalf, isSecondHalf, List.take_append_of_le_length (by omega),
      List.getElem?_append_left hlt]
  have hquote : isSecondHalf (s ++ '"' :: after) s.length = false := by
    rw [isSecondHalf, List.take_left, hpairs, Bool.false_and]
  rw [closingQuote?, freeQuotes, quotes_append, List.filter_append, hfront, hfree, quotes_cons]
  simp [hquote]

/-- A double quote at a boundary of a source is the start of a string, or of the error. -/
theorem piece_of_quote {source : String} {p : Nat} {rest : List Char} (hp : p ∈ boundaries source)
    (hquote : source.toList.drop p = '"' :: rest) :
    match stringPattern.firstMatch? ('"' :: rest) with
    | some text => ⟨.string, String.ofList text, p⟩ ∈ (scan 0 source.toList).pieces
    | none => ∀ comments, ∃ position, tokenizeWith comments source = .error ⟨p, position⟩ := by
  obtain ⟨last, hscan, -⟩ := scansTo_scan 0 source.toList
  obtain ⟨front, -, mid, -, rfl, hfront, -⟩ := hscan.exists_of_boundary hp
  have hmid : mid = '"' :: rest := by
    rw [← hquote, hfront.eq_append, Nat.zero_add, List.drop_left]
  subst hmid
  have hfirst := firstLexeme_quote rest
  cases hmatch : stringPattern.firstMatch? ('"' :: rest) with
  | none =>
    intro comments
    rw [hmatch, Option.map_none] at hfirst
    rw [hfront.tokenizeWith_eq hfirst, if_neg (List.cons_ne_nil _ _), Nat.zero_add]
    exact ⟨_, rfl⟩
  | some text =>
    rw [hmatch, Option.map_some] at hfirst
    dsimp only
    rw [hfront.scan_eq, scan_of_firstLexeme_eq_some hfirst]
    simp

/-- A literal is one string token, whatever follows it. -/
theorem scan_literal {s : String} (hfree : freeQuotes s.toList = [])
    (hpairs : pairsNext s.toList = false) (after : String) (pos : Nat) :
    scan pos ("\"" ++ s ++ "\"" ++ after).toList =
      let later := scan (pos + s.length + 2) after.toList
      ⟨⟨.string, "\"" ++ s ++ "\"", pos⟩ :: later.pieces, later.stuck⟩ := by
  have hsource :
      ("\"" ++ s ++ "\"" ++ after).toList = '"' :: (s.toList ++ '"' :: after.toList) := by
    simp
  have htext : '"' :: (s.toList ++ '"' :: after.toList).take (s.toList.length + 1) =
      ("\"" ++ s ++ "\"").toList := by
    rw [List.take_length_add_append]
    simp
  have hfirst : firstLexeme ('"' :: (s.toList ++ '"' :: after.toList)) =
      some (.string, ("\"" ++ s ++ "\"").toList) := by
    rw [firstLexeme_quote, firstMatch?_stringPattern, closingQuote?_append hfree hpairs,
      Option.map_some, Option.map_some, htext]
  have hlength : ("\"" ++ s ++ "\"").toList.length = s.length + 2 := by
    have hquote : "\"".length = 1 := rfl
    rw [String.length_toList, String.length_append, String.length_append]
    omega
  have hdrop : ('"' :: (s.toList ++ '"' :: after.toList)).drop (s.length + 2) = after.toList := by
    rw [← String.length_toList]
    simp
  rw [hsource, scan_of_firstLexeme_eq_some hfirst, hlength, hdrop, String.ofList_toList,
    Nat.add_assoc]

/-- The parser takes a string token for the text between its quotes. -/
theorem value_string (nested : Parser.Nested) (s : String) (pos : Int) (st : Parser.State) :
    let token : Token := ⟨.string, "\"" ++ s ++ "\"", pos⟩
    Parser.value .standard nested { st with ahead := token :: st.ahead } =
      .ok (.leaf .string (.str s) (some pos)) { st with seen := token :: st.seen } := by
  have hform : ∀ text : String, text.toList.head? ≠ some '"' → "\"" ++ s ++ "\"" ≠ text := by
    rintro _ hhead rfl
    simp at hhead
  have hparen := hform "(" (by decide)
  have hbrace := hform "\x7b" (by decide)
  have hbody : Parser.stringBody ⟨.string, "\"" ++ s ++ "\"", pos⟩ = s := by
    simp [Parser.stringBody]
  simp [Parser.value, Parser.traced, Parser.Settings.standard, Parser.firstOf,
    Parser.ValueForm.parser, Parser.parens, Parser.block, Parser.literal, Parser.integer,
    Parser.takeIf, Parser.nextIs, Parser.State.advance?, Parser.State.current, hparen, hbrace,
    bind, EStateM.bind, pure, EStateM.pure, Parser.stringLeaf, hbody]

/-- **A string ends at its closing quote.**  The first match of the string pattern goes from its
quote to the first free quote behind it, else to the last one of all.  Wherever the lexer comes to a
double quote, that match is its next piece, and if there is none, the error is there.  So a text
without free quotes, which does not pair the quote behind it, is read back unchanged. -/
theorem string_closes_at_closingQuote :
    (∀ rest, stringPattern.firstMatch? ('"' :: rest) =
      (closingQuote? rest).map fun i => '"' :: rest.take (i + 1)) ∧
    (∀ (source : String) (p : Nat) (rest : List Char), p ∈ boundaries source →
      source.toList.drop p = '"' :: rest →
      match stringPattern.firstMatch? ('"' :: rest) with
      | some text => ⟨.string, String.ofList text, p⟩ ∈ (scan 0 source.toList).pieces
      | none => ∀ comments, ∃ position, tokenizeWith comments source = .error ⟨p, position⟩) ∧
    ∀ s : String, freeQuotes s.toList = [] → pairsNext s.toList = false → ∀ pos : Nat,
      (∀ after : String, scan pos ("\"" ++ s ++ "\"" ++ after).toList =
        let later := scan (pos + s.length + 2) after.toList
        ⟨⟨.string, "\"" ++ s ++ "\"", pos⟩ :: later.pieces, later.stuck⟩) ∧
      ∀ (nested : Parser.Nested) (st : Parser.State),
        let token : Token := ⟨.string, "\"" ++ s ++ "\"", pos⟩
        Parser.value .standard nested { st with ahead := token :: st.ahead } =
          .ok (.leaf .string (.str s) (some pos)) { st with seen := token :: st.seen } :=
  ⟨firstMatch?_stringPattern, fun _ _ _ => piece_of_quote, fun s hfree hpairs pos =>
    ⟨fun after => scan_literal hfree hpairs after pos, fun nested => value_string nested s pos⟩⟩

/-- A string with escapes; another one behind it, which only a paired quote closes; and a third one
that nothing closes. -/
theorem string_closes_at_closingQuote_escaped :
    (freeQuotes "a\\\"b\\\\".toList = [] ∧ pairsNext "a\\\"b\\\\".toList = false ∧
      scan 0 "\"a\\\"b\\\\\" \"c\\\"d".toList =
        ⟨⟨.string, "\"a\\\"b\\\\\"", 0⟩ :: (scan 8 " \"c\\\"d".toList).pieces,
          (scan 8 " \"c\\\"d".toList).stuck⟩) ∧
    (9 ∈ boundaries "\"a\\\"b\\\\\" \"c\\\"d" ∧
      ⟨.string, "\"c\\\"", 9⟩ ∈ (scan 0 "\"a\\\"b\\\\\" \"c\\\"d".toList).pieces) ∧
    (2 ∈ boundaries "f \"c\\\n" ∧
      ∃ position, tokenizeWith true "f \"c\\\n" = .error ⟨2, position⟩) := by
  obtain ⟨-, hpiece, hliteral⟩ := string_closes_at_closingQuote
  have hfree : freeQuotes "a\\\"b\\\\".toList = [] := by decide
  have hpairs : pairsNext "a\\\"b\\\\".toList = false := by decide
  have hnine : 9 ∈ boundaries "\"a\\\"b\\\\\" \"c\\\"d" := by decide
  have htwo : 2 ∈ boundaries "f \"c\\\n" := by decide
  exact ⟨⟨hfree, hpairs, (hliteral _ hfree hpairs 0).1 " \"c\\\"d"⟩,
    ⟨hnine, hpiece _ 9 "c\\\"d".toList hnine (by decide)⟩,
    ⟨htwo, hpiece _ 2 "c\\\n".toList htwo (by decide) true⟩⟩

end Juxta.Token
