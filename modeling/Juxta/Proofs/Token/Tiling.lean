import Juxta.Proofs.Token.Exchange

/-!
# Sources are tiled by their pieces

The pieces of a source are contiguous and cover it, and so its tokens are parts of it, in order,
with nothing but blanks and comments between them.  A scan ends early only where no lexeme begins;
what comes before that place has the same pieces by itself.

## What is here

* `isBlocked` — no lexeme begins here: `firstLexeme_eq_none_iff_isBlocked`.
* `ScansTo pos cs pieces rest` — a scan of `cs` comes to `rest`.  `scansTo_scan` says that the scan
  goes on for as long as it can, `ScansTo.truncate` that it does not depend on what it has not
  reached.
* `Contiguous`, `Tiled` — pieces that follow each other, and that cover a source.
* `Spread` — tokens that stand in a source one after the other.
* `tokenizeWith_tiles` — the pieces of a source tile it, and its tokens are among them.
-/

set_option autoImplicit false
namespace Juxta.Token

variable {pos : Nat} {c : Char} {cs rest : List Char} {k : Kind} {pieces : List Token}
  {source : String}

/-! ## Where no lexeme begins -/

/-- The characters of sources that are neither digits nor letters. -/
def marks : List Char :=
  "-_$:+*/%=<>!&|^.,;()[]\x7b\x7d\n# \t\"".toList

/-- The characters of which sources are made. -/
def inAlphabet (c : Char) : Bool :=
  c.isDigit || c.isAlpha || marks.contains c

/-- Whether a text begins with a character of no source, or with a quote that no other follows. -/
def isBlocked : List Char → Bool
  | [] => false
  | c :: rest => !inAlphabet c || (c = '"' && !rest.contains '"')

/-- The alphabet consists of the characters with which the classes begin. -/
theorem inAlphabet_iff : inAlphabet c = true ↔ ∃ k : Kind, k.leads c = true := by
  constructor
  · intro h
    rw [inAlphabet, Bool.or_eq_true, Bool.or_eq_true, List.contains_iff_mem] at h
    rcases h with (hdigit | halpha) | hmark
    · exact ⟨.integer, hdigit⟩
    · exact ⟨.ident, by simp [Kind.leads, isIdentStart, halpha]⟩
    · have hmarks : (marks.all fun d => ∃ k ∈ Kind.all, k.leads d = true) = true := by decide
      obtain ⟨k, -, hk⟩ := of_decide_eq_true (List.all_eq_true.1 hmarks c hmark)
      exact ⟨k, hk⟩
  · rintro ⟨k, h⟩
    cases k with
    | float | integer => simp [inAlphabet, show c.isDigit = true from h]
    | string | rightOperator | quote | unquote | newline | comment =>
      rw [of_decide_eq_true h]
      decide
    | leftOperator =>
      have hall : "+-*/%=<>!&|^".toList.all inAlphabet = true := by decide
      exact List.all_eq_true.1 hall c (List.contains_iff_mem.1 h)
    | punctuation =>
      have hall : ['.', ',', ';', '(', ')', '[', ']', '\x7b', '\x7d'].all inAlphabet = true := by
        decide
      exact List.all_eq_true.1 hall c (List.contains_iff_mem.1 h)
    | ident =>
      simp only [Kind.leads, isIdentStart, Bool.or_eq_true, decide_eq_true_eq] at h
      rcases h with ((halpha | rfl) | rfl) | rfl
      · simp [inAlphabet, halpha]
      · decide
      · decide
      · decide
    | whitespace =>
      simp only [Kind.leads, isSpace, Bool.or_eq_true, decide_eq_true_eq] at h
      rcases h with rfl | rfl <;> decide

theorem firstLexeme_eq_none_iff : firstLexeme cs = none ↔ ∀ k : Kind, k.lexeme cs = [] := by
  rw [firstLexeme, List.findSome?_eq_none_iff]
  refine ⟨fun h k => ?_, fun h k _ => by rw [h k]⟩
  have hnone := h k (Kind.mem_all k)
  split at hnone
  · assumption
  · cases hnone

/-- A character that leads a class begins a lexeme, unless it is a quote. -/
theorem exists_lexeme_of_leads (h : k.leads c = true) (hc : c ≠ '"') (cs : List Char) :
    ∃ k' : Kind, k'.lexeme (c :: cs) ≠ [] := by
  cases k with
  | float | integer => exact ⟨.integer, by simp [Kind.lexeme, show c.isDigit = true from h]⟩
  | string => exact absurd (of_decide_eq_true h) hc
  | rightOperator | quote => exact ⟨.quote, by simp [Kind.lexeme, charLexeme, of_decide_eq_true h]⟩
  | unquote =>
    rw [of_decide_eq_true h]
    exact ⟨.ident, by simp [Kind.lexeme, runLexeme, isIdentStart]⟩
  | leftOperator =>
    exact ⟨.leftOperator, by simp [Kind.lexeme, show isOperatorChar c = true from h]⟩
  | punctuation =>
    exact ⟨.punctuation, by simp [Kind.lexeme, charLexeme, show isPunctuation c = true from h]⟩
  | ident => exact ⟨.ident, by simp [Kind.lexeme, runLexeme, show isIdentStart c = true from h]⟩
  | newline => exact ⟨.newline, by simp [Kind.lexeme, runLexeme, of_decide_eq_true h]⟩
  | comment => exact ⟨.comment, by simp [Kind.lexeme, runLexeme, of_decide_eq_true h]⟩
  | whitespace => exact ⟨.whitespace, by simp [Kind.lexeme, show isSpace c = true from h]⟩

/-- The first character of a text leads the class of every lexeme there. -/
theorem leads_of_lexeme_ne_nil (h : k.lexeme (c :: cs) ≠ []) : k.leads c = true := by
  obtain ⟨d, l, hl⟩ := List.exists_cons_of_ne_nil h
  obtain ⟨after, hafter⟩ := k.lexeme_front (c :: cs)
  rw [hl, List.cons_append] at hafter
  rw [(List.cons.inj hafter).1]
  exact Kind.leads_of_lexeme hl

/-- **No class applies exactly where a text is blocked.** -/
theorem firstLexeme_eq_none_iff_isBlocked :
    firstLexeme (c :: cs) = none ↔ isBlocked (c :: cs) = true := by
  have hblocked : isBlocked (c :: cs) = true ↔
      inAlphabet c = false ∨ (c = '"' ∧ '"' ∉ cs) := by
    simp [isBlocked]
  rw [firstLexeme_eq_none_iff, hblocked]
  constructor
  · intro hnil
    by_cases hc : c = '"'
    · subst hc
      exact .inr ⟨rfl, stringLexeme_eq_nil_iff.1 (hnil .string)⟩
    · refine .inl (Bool.eq_false_iff.2 fun halphabet => ?_)
      obtain ⟨k, hk⟩ := inAlphabet_iff.1 halphabet
      obtain ⟨k', hk'⟩ := exists_lexeme_of_leads hk hc cs
      exact hk' (hnil k')
  · intro hblocked k
    by_contra hne
    have hlead := leads_of_lexeme_ne_nil hne
    rcases hblocked with houtside | ⟨rfl, hquote⟩
    · rw [inAlphabet_iff.2 ⟨k, hlead⟩] at houtside
      cases houtside
    · have hstring : ∀ k ∈ Kind.all, k.leads '"' = true → k = .string := by decide
      obtain rfl := hstring k (Kind.mem_all k) hlead
      exact hne (stringLexeme_eq_nil_iff.2 hquote)

/-! ## Scans -/

/-- `ScansTo pos cs pieces rest`: a scan of `cs`, which starts at offset `pos`, cuts these pieces
and comes to `rest`, where it may go on. -/
inductive ScansTo : Nat → List Char → List Token → List Char → Prop
  | here {pos : Nat} {cs : List Char} : ScansTo pos cs [] cs
  | cut {pos : Nat} {l after rest : List Char} {k : Kind} {pieces : List Token}
      (hfirst : firstLexeme (l ++ after) = some (k, l))
      (hrest : ScansTo (pos + l.length) after pieces rest) :
      ScansTo pos (l ++ after) (⟨k, String.ofList l, pos⟩ :: pieces) rest

theorem exists_append_of_firstLexeme {l : List Char} (h : firstLexeme cs = some (k, l)) :
    ∃ after, cs = l ++ after := by
  obtain ⟨after, hafter⟩ := k.lexeme_front cs
  exact ⟨after, lexeme_of_firstLexeme h ▸ hafter⟩

/-- A scan goes on until it comes to the end or is blocked. -/
theorem scansTo_scan (pos : Nat) (cs : List Char) :
    ∃ rest, ScansTo pos cs (scan pos cs).pieces rest ∧ firstLexeme rest = none := by
  induction hn : cs.length using Nat.strongRecOn generalizing pos cs with
  | ind n ih =>
    cases hfirst : firstLexeme cs with
    | none =>
      refine ⟨cs, ?_, hfirst⟩
      by_cases hcs : cs = []
      · subst hcs
        exact .here
      · rw [scan_of_firstLexeme_eq_none hcs hfirst]
        exact .here
    | some found =>
      obtain ⟨k, l⟩ := found
      obtain ⟨after, rfl⟩ := exists_append_of_firstLexeme hfirst
      have hl := List.length_pos_iff.2 (ne_nil_of_firstLexeme hfirst)
      rw [List.length_append] at hn
      obtain ⟨rest, hscan, hrest⟩ := ih after.length (by omega) (pos + l.length) after rfl
      rw [scan_of_firstLexeme_eq_some hfirst, List.drop_left]
      exact ⟨rest, .cut hfirst hscan, hrest⟩

/-- The text that some tokens spell, one after the other. -/
def spelled (ts : List Token) : List Char :=
  ts.flatMap (·.text.toList)

@[simp] theorem spelled_nil : spelled [] = [] := rfl

@[simp] theorem spelled_cons (t : Token) (ts : List Token) :
    spelled (t :: ts) = t.text.toList ++ spelled ts := rfl

namespace ScansTo

/-- Nothing is lost. -/
theorem eq_append (h : ScansTo pos cs pieces rest) : cs = spelled pieces ++ rest := by
  induction h with
  | here => rfl
  | cut _ _ ih => rw [spelled_cons, String.toList_ofList, List.append_assoc, ← ih]

/-- The whole scan is one from where it has come to. -/
theorem scan_eq (h : ScansTo pos cs pieces rest) :
    scan pos cs =
      let later := scan (pos + (spelled pieces).length) rest
      ⟨pieces ++ later.pieces, later.stuck⟩ := by
  induction h with
  | here => rfl
  | cut hfirst _ ih =>
    rw [scan_of_firstLexeme_eq_some hfirst, List.drop_left, ih, spelled_cons, List.length_append,
      String.toList_ofList, Nat.add_assoc]
    rfl

end ScansTo

/-- The end of a text that is scanned to its end. -/
theorem cuts_iff_scansTo : Cuts pos cs pieces ↔ ScansTo pos cs pieces [] := by
  constructor
  · intro h
    induction h with
    | nil => exact .here
    | @cons pos cs l k pieces hfirst _ ih =>
      obtain ⟨after, rfl⟩ := exists_append_of_firstLexeme hfirst
      rw [List.drop_left] at ih
      exact .cut hfirst ih
  · intro h
    generalize hrest : ([] : List Char) = rest at h
    induction h with
    | here =>
      subst hrest
      exact .nil
    | cut hfirst _ ih =>
      refine .cons hfirst ?_
      rw [List.drop_left]
      exact ih hrest

/-! ## What a scan has not reached -/

theorem startsAs_append (u w : List Char) : StartsAs (u ++ w) u := by
  intro c hc
  rw [Option.mem_def, List.head?_append, hc]
  rfl

theorem calmer_append (u w : List Char) : Calmer (u ++ w) u where
  head c hc := .inl (startsAs_append u w c hc)
  point d rest hu _ := ⟨rest ++ w, by rw [hu]; rfl⟩
  quote hquote hmem := hquote (List.mem_append_left w hmem)

/-- The text before a blocked place has the same pieces by itself. -/
theorem ScansTo.truncate (h : ScansTo pos cs pieces rest) (hblocked : firstLexeme rest = none) :
    ScansTo pos (spelled pieces) pieces [] := by
  induction h with
  | here => exact .here
  | @cut pos l after rest k pieces hfirst hrest ih =>
    obtain rfl := hrest.eq_append
    rw [spelled_cons, String.toList_ofList]
    refine .cut (firstLexeme_exchange hfirst (calmer_append _ _) ?_ ?_) (ih hblocked)
    · exact fun _ => startsAs_append _ _
    · rintro rfl
      cases hpieces : spelled pieces with
      | cons c cs => rfl
      | nil =>
        -- the parenthesis behind an unquotation is never blocked
        rw [hpieces, List.nil_append] at hfirst
        obtain ⟨-, rest', rfl⟩ :=
          parts_of_unquoteLexeme (lexeme_of_firstLexeme hfirst) (ne_nil_of_firstLexeme hfirst)
        rw [firstLexeme_eq_none_iff_isBlocked] at hblocked
        cases hblocked

/-- The tokens of a source, or where it is blocked. -/
theorem ScansTo.tokenizeWith_eq (h : ScansTo 0 source.toList pieces rest)
    (hblocked : firstLexeme rest = none) (comments : Bool) :
    tokenizeWith comments source =
      if rest = [] then .ok (pieces.filter (·.kind.isKept comments))
      else .error ⟨(spelled pieces).length, Position.start.after (spelled pieces)⟩ := by
  by_cases hrest : rest = []
  · subst hrest
    rw [if_pos rfl, tokenizeWith, h.scan_eq]
    simp
  · rw [if_neg hrest, tokenizeWith, h.scan_eq, scan_of_firstLexeme_eq_none hrest hblocked,
      h.eq_append]
    simp

/-! ## Tilings -/

/-- From the first offset to the last, each piece starts where the one before it stops. -/
def Contiguous : Int → List Token → Int → Prop
  | start, [], stop => start = stop
  | start, t :: ts, stop => t.pos = start ∧ Contiguous t.stop ts stop

/-- The pieces are not empty, follow each other, and cover the source. -/
structure Tiled (source : String) (pieces : List Token) : Prop where
  nonempty : ∀ t ∈ pieces, t.text ≠ ""
  contiguous : Contiguous 0 pieces source.length
  covers : String.join (pieces.map text) = source

theorem ScansTo.nonempty (h : ScansTo pos cs pieces rest) : ∀ t ∈ pieces, t.text ≠ "" := by
  induction h with
  | here => exact List.forall_mem_nil _
  | @cut pos l after rest k pieces hfirst _ ih =>
    refine List.forall_mem_cons.2 ⟨fun htext => ne_nil_of_firstLexeme hfirst ?_, ih⟩
    rw [← String.toList_ofList (l := l), show String.ofList l = "" from htext]
    rfl

theorem ScansTo.contiguous (h : ScansTo pos cs pieces rest) :
    Contiguous pos pieces (pos + (spelled pieces).length) := by
  induction h with
  | here => exact (Int.add_zero _).symm
  | @cut pos l after rest k pieces hfirst _ ih =>
    refine ⟨rfl, ?_⟩
    have hstop : (⟨k, String.ofList l, pos⟩ : Token).stop = ↑(pos + l.length) := by
      simp [stop]
    rw [hstop, spelled_cons, List.length_append, String.toList_ofList]
    rw [show (pos : Int) + ↑(l.length + (spelled pieces).length) =
      ↑(pos + l.length) + ↑(spelled pieces).length by omega]
    exact ih

/-- A scan to the end tiles the source. -/
theorem ScansTo.tiled (h : ScansTo 0 source.toList pieces []) : Tiled source pieces where
  nonempty := h.nonempty
  contiguous := by
    have hcontiguous := h.contiguous
    have hlength := congrArg List.length h.eq_append
    rw [List.append_nil, String.length_toList] at hlength
    rwa [← hlength, Int.natCast_zero, Int.zero_add] at hcontiguous
  covers := by
    rw [← String.toList_inj, String.toList_join, List.flatMap_map, h.eq_append, List.append_nil]
    rfl

theorem Contiguous.le {ts : List Token} {start stop : Int} (h : Contiguous start ts stop) :
    ∀ t ∈ ts, start ≤ t.pos := by
  induction ts generalizing start with
  | nil => exact List.forall_mem_nil _
  | cons t ts ih =>
    obtain ⟨rfl, h⟩ := h
    refine List.forall_mem_cons.2 ⟨Int.le_refl _, fun u hu => ?_⟩
    have hle := ih h u hu
    rw [Token.stop] at hle
    omega

/-- No piece stops behind the last offset. -/
theorem Contiguous.stop_le {ts : List Token} {start stop : Int} (h : Contiguous start ts stop) :
    ∀ t ∈ ts, t.stop ≤ stop := by
  induction ts generalizing start with
  | nil => exact List.forall_mem_nil _
  | cons t ts ih =>
    obtain ⟨-, h⟩ := h
    refine List.forall_mem_cons.2 ⟨?_, ih h⟩
    cases ts with
    | nil => exact Int.le_of_eq h
    | cons u ts =>
      have hu := ih h u List.mem_cons_self
      rw [Token.stop, h.1] at hu
      omega

/-- Of pieces that follow each other, each stops before the later ones start. -/
theorem Contiguous.pairwise {ts : List Token} {start stop : Int} (h : Contiguous start ts stop)
    (hne : ∀ t ∈ ts, t.text ≠ "") : ts.Pairwise fun t u => t.pos < u.pos ∧ t.stop ≤ u.pos := by
  induction ts generalizing start with
  | nil => exact .nil
  | cons t ts ih =>
    obtain ⟨hpos, h⟩ := h
    obtain ⟨htext, hne⟩ := List.forall_mem_cons.1 hne
    refine .cons (fun u hu => ⟨?_, h.le u hu⟩) (ih h hne)
    have hlength : t.text.length ≠ 0 := fun hzero => htext (String.length_eq_zero_iff.1 hzero)
    have hle := h.le u hu
    rw [Token.stop] at hle
    omega

/-! ## Tokens in their source -/

/-- The part of a text between two offsets. -/
def slice (source : String) (start stop : Int) : String :=
  String.ofList ((source.toList.take stop.toNat).drop start.toNat)

/-- The parts of a source before, between and behind some tokens, from an offset on. -/
def gapsFrom (source : String) : Int → List Token → List String
  | start, [] => [slice source start source.length]
  | start, t :: ts => slice source start t.pos :: gapsFrom source t.stop ts

/-- Whether a text consists of blanks, behind which a comment may stand where comments are no
tokens. -/
def isGap (comments : Bool) (text : String) : Bool :=
  match text.toList.dropWhile isSpace with
  | [] => true
  | c :: rest => !comments && c = '#' && !rest.contains '\n'

/-- The tokens stand in the source one after the other, with only gaps around them. -/
structure Spread (comments : Bool) (source : String) (tokens : List Token) : Prop where
  slices : ∀ t ∈ tokens, slice source t.pos t.stop = t.text
  ordered : tokens.Pairwise fun t u => t.pos < u.pos ∧ t.stop ≤ u.pos
  gaps : ∀ g ∈ gapsFrom source 0 tokens, isGap comments g = true

theorem slice_of_append {a b c : List Char} (h : source.toList = a ++ b ++ c) {stop : Int}
    (hstop : stop = ↑(a.length + b.length)) : slice source a.length stop = String.ofList b := by
  rw [slice, hstop, h, Int.toNat_natCast, Int.toNat_natCast, ← List.length_append, List.take_left,
    List.drop_left]

theorem ScansTo.slices (h : ScansTo pos cs pieces rest) {before : List Char}
    (hsource : source.toList = before ++ cs) (hpos : before.length = pos) :
    ∀ t ∈ pieces, slice source t.pos t.stop = t.text := by
  induction h generalizing before with
  | here => exact List.forall_mem_nil _
  | @cut pos l after rest k pieces _ _ ih =>
    subst hpos
    rw [← List.append_assoc] at hsource
    refine List.forall_mem_cons.2 ⟨slice_of_append hsource ?_, ih hsource (List.length_append)⟩
    simp [stop]

/-- What stands between a token and the rest of its source: blanks, or blanks and a comment, which
goes on to the end of its line. -/
def GapBefore (comments : Bool) (gap cs : List Char) : Prop :=
  (∀ c ∈ gap, isSpace c = true) ∨
    (isGap comments (String.ofList gap) = true ∧ ∀ c ∈ cs.head?, c = '\n')

theorem isGap_of_isSpace {comments : Bool} {gap : List Char} (h : ∀ c ∈ gap, isSpace c = true) :
    isGap comments (String.ofList gap) = true := by
  rw [isGap, String.toList_ofList, List.dropWhile_eq_nil_iff.2 h]

theorem isGap_of_comment {gap l : List Char} (h : ∀ c ∈ gap, isSpace c = true) (hl : '\n' ∉ l) :
    isGap false (String.ofList (gap ++ '#' :: l)) = true := by
  rw [isGap, String.toList_ofList, List.dropWhile_append_of_pos h,
    List.dropWhile_cons_of_neg (by decide)]
  simp [hl]

theorem GapBefore.isGap {comments : Bool} {gap : List Char} (h : GapBefore comments gap cs) :
    isGap comments (String.ofList gap) = true := by
  rcases h with hspace | ⟨hgap, -⟩
  · exact isGap_of_isSpace hspace
  · exact hgap

/-- A piece that is no token makes a gap longer. -/
theorem GapBefore.append {comments : Bool} {gap l after : List Char}
    (h : GapBefore comments gap (l ++ after)) (hfirst : firstLexeme (l ++ after) = some (k, l))
    (hkept : k.isKept comments = false) : GapBefore comments (gap ++ l) after := by
  have hl := ne_nil_of_firstLexeme hfirst
  have hlexeme := lexeme_of_firstLexeme hfirst
  have hkind : k = .whitespace ∨ (k = .comment ∧ comments = false) := by
    simp only [Kind.isKept, Bool.and_eq_false_iff, Bool.or_eq_false_iff, decide_eq_false_iff_not,
      not_not] at hkept
    exact hkept
  have hline : ∀ c ∈ (l ++ after).head?, c ≠ '\n' := by
    obtain ⟨c, l, rfl⟩ := List.exists_cons_of_ne_nil hl
    have hlead := Kind.leads_of_lexeme hlexeme
    rintro _ ⟨⟩ rfl
    rcases hkind with rfl | ⟨rfl, -⟩ <;> cases hlead
  have hspace : ∀ c ∈ gap, isSpace c = true := by
    rcases h with hspace | ⟨-, hnewline⟩
    · exact hspace
    · obtain ⟨c, l, rfl⟩ := List.exists_cons_of_ne_nil hl
      exact absurd (hnewline c rfl) (hline c rfl)
  rcases hkind with rfl | ⟨rfl, rfl⟩
  · refine .inl fun c hc => ?_
    rcases List.mem_append.1 hc with hc | hc
    · exact hspace c hc
    · exact all_of_takeWhile hlexeme c hc
  · obtain ⟨hhash, htail, hafter⟩ := (runLexeme_append_eq_left hl).1 hlexeme
    refine .inr ⟨?_, fun c hc => by simpa using hafter c hc⟩
    obtain ⟨c, l, rfl⟩ := List.exists_cons_of_ne_nil hl
    obtain rfl : c = '#' := by simpa using hhash c rfl
    refine isGap_of_comment hspace fun hmem => ?_
    exact absurd (htail _ hmem) (by decide)

/-- Between tokens there are only gaps. -/
theorem ScansTo.gaps {comments : Bool} (h : ScansTo pos cs pieces []) {before gap : List Char}
    (hsource : source.toList = before ++ gap ++ cs) (hpos : before.length + gap.length = pos)
    (hgap : GapBefore comments gap cs) :
    ∀ g ∈ gapsFrom source before.length (pieces.filter (·.kind.isKept comments)),
      isGap comments g = true := by
  generalize hrest : ([] : List Char) = rest at h
  induction h generalizing before gap with
  | here =>
    subst hrest hpos
    refine List.forall_mem_singleton.2 ?_
    rw [slice_of_append hsource]
    · exact hgap.isGap
    · rw [← String.length_toList, hsource]
      simp
  | @cut pos l after rest k pieces hfirst _ ih =>
    subst hpos
    by_cases hkept : k.isKept comments = true
    · rw [List.filter_cons, if_pos hkept]
      refine List.forall_mem_cons.2 ⟨?_, ?_⟩
      · rw [slice_of_append hsource rfl]
        exact hgap.isGap
      · have hstop : (⟨k, String.ofList l, ↑(before.length + gap.length)⟩ : Token).stop =
            ↑(before ++ gap ++ l).length := by
          simp [stop]
          omega
        rw [hstop]
        have hnone : GapBefore comments [] after := .inl (List.forall_mem_nil _)
        refine ih ?_ ?_ hnone hrest
        · rw [hsource]
          simp
        · simp
          omega
    · rw [List.filter_cons, if_neg hkept]
      refine ih ?_ ?_ (hgap.append hfirst (Bool.eq_false_iff.2 hkept)) hrest
      · rw [hsource]
        simp
      · simp
        omega

/-- The tokens of a source that is scanned to its end are spread over it. -/
theorem ScansTo.spread {comments : Bool} (h : ScansTo 0 source.toList pieces []) :
    Spread comments source (pieces.filter (·.kind.isKept comments)) where
  slices t ht := h.slices (List.nil_append _).symm rfl t (List.mem_filter.1 ht).1
  ordered := (h.contiguous.pairwise h.nonempty).filter _
  gaps :=
    have hstart : source.toList = [] ++ [] ++ source.toList := rfl
    h.gaps hstart rfl (.inl (List.forall_mem_nil _))

/-! ## Boundaries -/

/-- The offsets at which a scan of the source chooses a class: its start, and the end of every
piece. -/
def boundaries (source : String) : List Nat :=
  0 :: (scan 0 source.toList).pieces.map (·.stop.toNat)

/-- Whether no lexeme begins at an offset of the source. -/
def blockedAt (source : String) (offset : Nat) : Bool :=
  isBlocked (source.toList.drop offset)

/-- A boundary divides the pieces into those before it and those behind it. -/
theorem ScansTo.exists_of_boundary (h : ScansTo pos cs pieces rest) {p : Nat}
    (hp : p ∈ pos :: pieces.map (·.stop.toNat)) :
    ∃ front back mid, pieces = front ++ back ∧ p = pos + (spelled front).length ∧
      ScansTo pos cs front mid ∧ ScansTo p mid back rest := by
  induction h with
  | here =>
    obtain rfl : p = _ := by simpa using hp
    exact ⟨[], [], _, rfl, rfl, .here, .here⟩
  | @cut pos l after rest k pieces hfirst hrest ih =>
    rcases List.mem_cons.1 hp with rfl | hp
    · exact ⟨[], _, _, rfl, rfl, .here, .cut hfirst hrest⟩
    · have hstop : (⟨k, String.ofList l, pos⟩ : Token).stop.toNat = pos + l.length := by
        simp only [stop, String.length_ofList]
        omega
      rw [List.map_cons, hstop] at hp
      obtain ⟨front, back, mid, rfl, rfl, hfront, hback⟩ := ih hp
      refine ⟨_ :: front, back, mid, rfl, ?_, .cut hfirst hfront, hback⟩
      rw [spelled_cons, List.length_append, String.toList_ofList, Nat.add_assoc]

/-- The place to which a scan comes is a boundary. -/
theorem ScansTo.boundary (h : ScansTo pos cs pieces rest) :
    pos + (spelled pieces).length ∈ pos :: pieces.map (·.stop.toNat) := by
  induction h with
  | here => exact List.mem_cons_self
  | @cut pos l after rest k pieces _ _ ih =>
    have hstop : (⟨k, String.ofList l, pos⟩ : Token).stop.toNat = pos + l.length := by
      simp only [stop, String.length_ofList]
      omega
    rw [spelled_cons, List.length_append, String.toList_ofList, ← Nat.add_assoc, List.map_cons,
      hstop]
    exact List.mem_cons_of_mem _ ih

/-- A scan is blocked at no boundary but the one to which it comes. -/
theorem ScansTo.eq_of_blockedAt (h : ScansTo 0 source.toList pieces rest) {p : Nat}
    (hp : p ∈ 0 :: pieces.map (·.stop.toNat)) (hblocked : blockedAt source p = true) :
    p = (spelled pieces).length ∧ isBlocked rest = true := by
  obtain ⟨front, back, mid, rfl, rfl, hfront, hback⟩ := h.exists_of_boundary hp
  have hdrop : source.toList.drop (0 + (spelled front).length) = mid := by
    rw [hfront.eq_append, Nat.zero_add, List.drop_left]
  rw [blockedAt, hdrop] at hblocked
  cases hback with
  | here => exact ⟨by simp, hblocked⟩
  | @cut _ l after _ k _ hfirst _ =>
    obtain ⟨c, l, rfl⟩ := List.exists_cons_of_ne_nil (ne_nil_of_firstLexeme hfirst)
    rw [List.cons_append] at hblocked hfirst
    rw [firstLexeme_eq_none_iff_isBlocked.2 hblocked] at hfirst
    cases hfirst

/-! ## Tokens -/

/-- The offset is the first boundary at which the source is blocked. -/
structure IsFirstBlock (source : String) (offset : Nat) : Prop where
  boundary : offset ∈ boundaries source
  blocked : blockedAt source offset = true
  first : ∀ p ∈ boundaries source, blockedAt source p = true → offset ≤ p

/-- Comments are taken out of the tokens, whether they are kept at first or not. -/
theorem tokenizeWith_false (source : String) :
    tokenizeWith false source =
      (tokenizeWith true source).map (·.filter (·.kind ≠ .comment)) := by
  obtain ⟨rest, hscan, hnone⟩ := scansTo_scan 0 source.toList
  rw [hscan.tokenizeWith_eq hnone, hscan.tokenizeWith_eq hnone]
  split
  · rw [Except.map, List.filter_filter]
    congr 2
    funext t
    simp [Kind.isKept, Bool.and_comm]
  · rfl

/-- A scan that does not come to the end is blocked first where it ends. -/
theorem ScansTo.isFirstBlock (h : ScansTo 0 source.toList (scan 0 source.toList).pieces rest)
    (hne : rest ≠ []) (hnone : firstLexeme rest = none) :
    IsFirstBlock source (spelled (scan 0 source.toList).pieces).length where
  boundary := by
    have hboundary := h.boundary
    rwa [Nat.zero_add] at hboundary
  blocked := by
    obtain ⟨c, cs, rfl⟩ := List.exists_cons_of_ne_nil hne
    have hdrop := congrArg (List.drop (spelled (scan 0 source.toList).pieces).length) h.eq_append
    rw [List.drop_left] at hdrop
    rw [blockedAt, hdrop]
    exact firstLexeme_eq_none_iff_isBlocked.1 hnone
  first p hp hblocked := Nat.le_of_eq (h.eq_of_blockedAt hp hblocked).1.symm

/-- What was scanned before a blocked place is scanned in the same way by itself. -/
theorem ScansTo.tokenizeWith_take (h : ScansTo 0 source.toList pieces rest)
    (hnone : firstLexeme rest = none) (comments : Bool) :
    tokenizeWith comments (String.ofList (source.toList.take (spelled pieces).length)) =
      .ok (pieces.filter (·.kind.isKept comments)) := by
  have htake : source.toList.take (spelled pieces).length = spelled pieces := by
    rw [h.eq_append, List.take_left]
  have hfront := h.truncate hnone
  rw [htake]
  rw [← String.toList_ofList (l := spelled pieces)] at hfront
  rw [hfront.tokenizeWith_eq rfl, if_pos rfl]

/-- **The lexer tiles the source.**  The pieces of a source that has tokens tile it, and its tokens
are those pieces that are kept, spread over the source.  A source has no tokens exactly if it is
blocked at a boundary, the first of which is the place of the error; the text before that place has
the tokens that were found.  Without comments the tokens are those with comments, less these. -/
theorem tokenizeWith_tiles (comments : Bool) (source : String) :
    (match tokenizeWith comments source with
      | .ok tokens =>
        Tiled source (scan 0 source.toList).pieces ∧
          tokens = (scan 0 source.toList).pieces.filter (·.kind.isKept comments) ∧
          Spread comments source tokens
      | .error e =>
        IsFirstBlock source e.offset ∧ e.offset < source.length ∧
          tokenizeWith comments (String.ofList (source.toList.take e.offset)) =
            .ok ((scan 0 source.toList).pieces.filter (·.kind.isKept comments))) ∧
      ((∃ e, tokenizeWith comments source = .error e) ↔
        ∃ p ∈ boundaries source, blockedAt source p = true) ∧
      tokenizeWith false source =
        (tokenizeWith true source).map (·.filter (·.kind ≠ .comment)) := by
  obtain ⟨rest, hscan, hnone⟩ := scansTo_scan 0 source.toList
  refine ⟨?_, ?_, tokenizeWith_false source⟩
  · rw [hscan.tokenizeWith_eq hnone]
    by_cases hrest : rest = []
    · subst hrest
      rw [if_pos rfl]
      exact ⟨hscan.tiled, rfl, hscan.spread⟩
    · rw [if_neg hrest]
      refine ⟨hscan.isFirstBlock hrest hnone, ?_, hscan.tokenizeWith_take hnone comments⟩
      have hlength := congrArg List.length hscan.eq_append
      have hpos := List.length_pos_iff.2 hrest
      rw [String.length_toList, List.length_append] at hlength
      dsimp only
      omega
  · rw [hscan.tokenizeWith_eq hnone]
    by_cases hrest : rest = []
    · subst hrest
      rw [if_pos rfl]
      refine iff_of_false (fun ⟨e, he⟩ => nomatch he) ?_
      rintro ⟨p, hp, hblocked⟩
      cases (hscan.eq_of_blockedAt hp hblocked).2
    · rw [if_neg hrest]
      have hfirst := hscan.isFirstBlock hrest hnone
      exact iff_of_true ⟨_, rfl⟩ ⟨_, hfirst.boundary, hfirst.blocked⟩

/-- A string that only a paired quote closes, an unquotation, and a character of no source. -/
theorem tokenizeWith_tiles_blocked :
    tokenize "f \"x\\\" $(1) ?" = .error ⟨12, ⟨1, 13⟩⟩ ∧
      IsFirstBlock "f \"x\\\" $(1) ?" 12 ∧
      tokenize "f \"x\\\" $(1) " =
        .ok ((scan 0 "f \"x\\\" $(1) ?".toList).pieces.filter (·.kind.isKept false)) := by
  have herror : tokenizeWith false "f \"x\\\" $(1) ?" = .error ⟨12, ⟨1, 13⟩⟩ := by decide
  have htiles := (tokenizeWith_tiles false "f \"x\\\" $(1) ?").1
  rw [herror] at htiles
  exact ⟨herror, htiles.1, htiles.2.2⟩

end Juxta.Token
