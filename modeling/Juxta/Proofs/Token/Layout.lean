import Juxta.Proofs.Token.Tiling

/-!
# Layout between pieces

Blanks may be put between any two pieces of a source, and a comment may be put at the end of any
line, without a change of what the tokens say.  Pieces do change: blanks become one with the blanks
or the line end before them, and a comment becomes one with a comment before it.  None of this is
said by a token.

The one place to spare is behind an unquotation, which needs its parenthesis at once.

## What is here

* `word` — what a token says: its class, and its text unless it is a line end.
* `LexesTo cs ws` — the text `cs` is cut into pieces whose tokens say `ws`.
* `Filling text rest` — blanks, or a comment at the end of a line.
* `ScansTo.lexesTo_insert` — a filling behind some pieces leaves all words as they are.
* `Fits`, `insertAt`, `tokenize_insertAt` — the same of sources and their tokens.
-/

set_option autoImplicit false
namespace Juxta.Token

variable {pos : Nat} {cs l after mid rest text : List Char} {k : Kind} {pieces : List Token}
  {ws : List (Kind × Option String)} {source : String}

/-! ## What tokens say -/

/-- What a token says, wherever it stands: its class, and its text unless it is a line end. -/
def word (t : Token) : Kind × Option String :=
  (t.kind, if t.kind = .newline then none else some t.text)

/-- What the tokens among some pieces say. -/
def words (pieces : List Token) : List (Kind × Option String) :=
  (pieces.filter (·.kind.isKept false)).map word

/-- What the token says that is made of a lexeme, if one is. -/
def Kind.spoken (k : Kind) (l : List Char) : List (Kind × Option String) :=
  words [⟨k, String.ofList l, 0⟩]

theorem words_cons (k : Kind) (l : List Char) (pos : Nat) (pieces : List Token) :
    words (⟨k, String.ofList l, pos⟩ :: pieces) = k.spoken l ++ words pieces := by
  rw [Kind.spoken, words, words, words, List.filter_cons, List.filter_cons]
  split
  · rfl
  · rfl

@[simp] theorem spoken_whitespace (l : List Char) : Kind.whitespace.spoken l = [] := rfl

@[simp] theorem spoken_comment (l : List Char) : Kind.comment.spoken l = [] := rfl

@[simp] theorem spoken_newline (l : List Char) : Kind.newline.spoken l = [(.newline, none)] := rfl

/-- The text is cut into pieces, the tokens of which say these words. -/
inductive LexesTo : List Char → List (Kind × Option String) → Prop
  | nil : LexesTo [] []
  | cut {l after : List Char} {k : Kind} {ws : List (Kind × Option String)}
      (hfirst : firstLexeme (l ++ after) = some (k, l)) (hrest : LexesTo after ws) :
      LexesTo (l ++ after) (k.spoken l ++ ws)

/-- A scan to the end finds what the pieces say. -/
theorem ScansTo.lexesTo (h : ScansTo pos cs pieces []) : LexesTo cs (words pieces) := by
  generalize hrest : ([] : List Char) = rest at h
  induction h with
  | here =>
    subst hrest
    exact .nil
  | cut hfirst _ ih =>
    rw [words_cons]
    exact .cut hfirst (ih hrest)

/-- Wherever the text starts, a scan comes to its end. -/
theorem LexesTo.exists_scansTo (h : LexesTo cs ws) (pos : Nat) :
    ∃ pieces, ScansTo pos cs pieces [] ∧ words pieces = ws := by
  induction h generalizing pos with
  | nil => exact ⟨[], .here, rfl⟩
  | @cut l after k ws hfirst _ ih =>
    obtain ⟨pieces, hscan, rfl⟩ := ih (pos + l.length)
    exact ⟨_, .cut hfirst hscan, words_cons ..⟩

/-- The first piece can be taken away. -/
theorem LexesTo.of_firstLexeme (h : LexesTo (l ++ after) ws)
    (hfirst : firstLexeme (l ++ after) = some (k, l)) :
    ∃ ws', ws = k.spoken l ++ ws' ∧ LexesTo after ws' := by
  generalize hcs : l ++ after = cs at h hfirst
  cases h with
  | nil => cases hfirst
  | @cut l' after' k' ws' hfirst' hrest =>
    obtain ⟨rfl, rfl⟩ := Prod.mk.inj (Option.some.inj (hfirst'.symm.trans hfirst))
    obtain rfl := List.append_cancel_left hcs
    exact ⟨ws', rfl, hrest⟩

/-! ## Blanks, comments and line ends -/

/-- A class that applies is the first if it alone has lexemes that begin so. -/
theorem firstLexeme_of_lexeme (h : k.lexeme cs = l) (hl : l ≠ [])
    (hlead : ∀ c ∈ l.head?, ∀ k' ∈ Kind.all, k'.leads c = true → k' = k) :
    firstLexeme cs = some (k, l) := by
  obtain ⟨before, after, hall, hbefore⟩ := List.eq_append_cons_of_mem (Kind.mem_all k)
  refine firstLexeme_eq_some_iff.2 ⟨hl, h, before, after, hall, fun k' hk' => ?_⟩
  by_contra hne
  obtain ⟨c, l, rfl⟩ := List.exists_cons_of_ne_nil hl
  obtain ⟨rest, rfl⟩ := h ▸ k.lexeme_front cs
  exact hbefore (hlead c rfl k' (Kind.mem_all k') (leads_of_lexeme_ne_nil hne) ▸ hk')

/-- Blanks are taken together. -/
theorem firstLexeme_whitespace (hl : l ≠ []) (hspace : ∀ c ∈ l, isSpace c = true)
    (hafter : ∀ c ∈ after.head?, isSpace c = false) :
    firstLexeme (l ++ after) = some (.whitespace, l) := by
  refine firstLexeme_of_lexeme (takeWhile_append_eq_left.2 ⟨hspace, hafter⟩) hl fun c hc => ?_
  have hc := hspace c (List.mem_of_mem_head? hc)
  simp only [isSpace, Bool.or_eq_true, decide_eq_true_eq] at hc
  rcases hc with rfl | rfl <;> decide

/-- A comment goes on to the end of its line. -/
theorem firstLexeme_comment (hl : '\n' ∉ l) (hafter : ∀ c ∈ after.head?, c = '\n') :
    firstLexeme ('#' :: l ++ after) = some (.comment, '#' :: l) := by
  have hlexeme : Kind.comment.lexeme ('#' :: l ++ after) = '#' :: l := by
    rw [Kind.lexeme, runLexeme_append_eq_left (List.cons_ne_nil _ _)]
    refine ⟨fun c hc => ?_, fun c hc => ?_, fun c hc => ?_⟩
    · obtain rfl := Option.some.inj hc
      rfl
    · rw [decide_eq_true_eq]
      rintro rfl
      exact hl hc
    · simp [hafter c hc]
  refine firstLexeme_of_lexeme hlexeme (List.cons_ne_nil _ _) fun c hc => ?_
  obtain rfl := Option.some.inj hc
  decide

/-- A line end takes the layout that follows it. -/
theorem firstLexeme_lineEnd (hl : ∀ c ∈ l, isLayout c = true)
    (hafter : ∀ c ∈ after.head?, isLayout c = false) :
    firstLexeme ('\n' :: l ++ after) = some (.newline, '\n' :: l) := by
  rw [List.cons_append, firstLexeme_newline, takeWhile_append_eq_left.2 ⟨hl, hafter⟩]

/-- Blanks at the start of a text say nothing. -/
theorem lexesTo_dropWhile : LexesTo (cs.dropWhile isSpace) ws ↔ LexesTo cs ws := by
  by_cases hnil : cs.takeWhile isSpace = []
  · have hcs := List.takeWhile_append_dropWhile (p := isSpace) (l := cs)
    rw [hnil, List.nil_append] at hcs
    rw [hcs]
  · have hafter : ∀ c ∈ (cs.dropWhile isSpace).head?, isSpace c = false := by
      intro c hc
      have := List.head?_dropWhile_not isSpace cs
      rw [hc] at this
      simpa using this
    have hfirst := firstLexeme_whitespace hnil (all_of_takeWhile rfl) hafter
    constructor
    · intro h
      have hcut := LexesTo.cut hfirst h
      rwa [List.takeWhile_append_dropWhile] at hcut
    · intro h
      rw [← List.takeWhile_append_dropWhile (p := isSpace) (l := cs)] at h
      obtain ⟨ws', rfl, hrest⟩ := h.of_firstLexeme hfirst
      exact hrest

theorem lexesTo_append_of_isSpace (hl : ∀ c ∈ l, isSpace c = true) :
    LexesTo (l ++ after) ws ↔ LexesTo after ws := by
  rw [← lexesTo_dropWhile, List.dropWhile_append_of_pos hl, lexesTo_dropWhile]

/-! ## Fillings -/

/-- A text without meaning in front of another: blanks, or a comment at the end of a line.  A
comment with a quote could close a string before it. -/
inductive Filling : List Char → List Char → Prop
  | blanks {text rest : List Char} (hspace : ∀ c ∈ text, isSpace c = true) : Filling text rest
  | comment {body rest : List Char} (hline : '\n' ∉ body) (hquote : '"' ∉ body)
      (hrest : ∀ c ∈ rest.head?, c = '\n') : Filling ('#' :: body) rest

namespace Filling

theorem isFiller_of_head (h : Filling text rest) : ∀ c ∈ text.head?, isFiller c = true := by
  intro c hc
  cases h with
  | blanks hspace => simp [isFiller, hspace c (List.mem_of_mem_head? hc)]
  | comment =>
    obtain rfl := Option.some.inj hc
    rfl

theorem notMem (h : Filling text rest) : '\n' ∉ text ∧ '"' ∉ text := by
  cases h with
  | blanks hspace =>
    refine ⟨fun hmem => ?_, fun hmem => ?_⟩
    · exact absurd (hspace _ hmem) (by decide)
    · exact absurd (hspace _ hmem) (by decide)
  | comment hline hquote => simp [hline, hquote]

/-- A filling says nothing. -/
theorem lexesTo (h : Filling text rest) (hrest : LexesTo rest ws) : LexesTo (text ++ rest) ws := by
  cases h with
  | blanks hspace => exact (lexesTo_append_of_isSpace hspace).2 hrest
  | comment hline _ hend => exact .cut (firstLexeme_comment hline hend) hrest

/-- A filling continues no lexeme. -/
theorem calmer (h : Filling text rest) (front : List Char) :
    Calmer (front ++ rest) (front ++ (text ++ rest)) where
  head c hc := by
    cases front with
    | cons d front => exact .inl hc
    | nil =>
      cases text with
      | nil => exact .inl hc
      | cons d text => exact .inr (h.isFiller_of_head c hc)
  point d after hafter hd := by
    match front, text, h, hafter with
    | [], [], _, hafter => exact ⟨after, hafter⟩
    | [], c :: text, h, hafter =>
      obtain ⟨rfl, -⟩ := List.cons.inj hafter
      cases h.isFiller_of_head _ rfl
    | [c], [], _, hafter => exact ⟨after, hafter⟩
    | [c], e :: text, h, hafter =>
      obtain ⟨-, hafter⟩ := List.cons.inj hafter
      obtain ⟨rfl, -⟩ := List.cons.inj hafter
      rw [isDigit_of_isFiller (h.isFiller_of_head _ rfl)] at hd
      cases hd
    | c :: e :: front, text, h, hafter =>
      obtain ⟨hc, hafter⟩ := List.cons.inj hafter
      obtain ⟨he, -⟩ := List.cons.inj hafter
      exact ⟨front ++ rest, by rw [hc, he]; rfl⟩
  quote hquote hmem := by
    simp only [List.mem_append, not_or] at hquote hmem
    rcases hmem with hmem | hmem | hmem
    · exact hquote.1 hmem
    · exact h.notMem.2 hmem
    · exact hquote.2 hmem

/-- A line end takes blanks along, but no comment. -/
theorem lexesTo_lineEnd (h : Filling text mid) (hl : ∀ c ∈ l, isLayout c = true)
    (hend : ∀ c ∈ mid.head?, isLayout c = false) (hmid : LexesTo mid ws) :
    LexesTo ('\n' :: l ++ (text ++ mid)) ((.newline, none) :: ws) := by
  cases h with
  | blanks hspace =>
    have hall : ∀ c ∈ l ++ text, isLayout c = true := by
      intro c hc
      rcases List.mem_append.1 hc with hc | hc
      · exact hl c hc
      · have hblank := hspace c hc
        simp only [isSpace, Bool.or_eq_true, decide_eq_true_eq] at hblank
        rcases hblank with rfl | rfl <;> rfl
    have hcut := LexesTo.cut (firstLexeme_lineEnd hall hend) hmid
    rwa [List.cons_append, List.append_assoc] at hcut
  | @comment body _ hline hquote hrest =>
    have hhash : ∀ c ∈ ('#' :: body ++ mid).head?, isLayout c = false := by
      intro c hc
      obtain rfl := Option.some.inj hc
      rfl
    exact .cut (firstLexeme_lineEnd hl hhash) (lexesTo (.comment hline hquote hrest) hmid)

/-- A comment takes any filling along. -/
theorem lexesTo_comment (h : Filling text mid) (hl : '\n' ∉ l)
    (hend : ∀ c ∈ mid.head?, c = '\n') (hmid : LexesTo mid ws) :
    LexesTo ('#' :: l ++ (text ++ mid)) ws := by
  have hline : '\n' ∉ l ++ text := by
    rw [List.mem_append, not_or]
    exact ⟨hl, h.notMem.1⟩
  have hcut := LexesTo.cut (firstLexeme_comment hline hend) hmid
  rwa [List.cons_append, List.append_assoc] at hcut

/-- **Behind any piece but an unquotation a filling says nothing.**  Pieces that take the layout or
the text that follows them may take the filling. -/
theorem lexesTo_cut (h : Filling text mid) (hfirst : firstLexeme (l ++ mid) = some (k, l))
    (hk : k ≠ .unquote) (hmid : LexesTo mid ws) :
    LexesTo (l ++ (text ++ mid)) (k.spoken l ++ ws) := by
  have hl := ne_nil_of_firstLexeme hfirst
  have hlexeme := lexeme_of_firstLexeme hfirst
  by_cases hopen : k.isOpen = true
  · simp only [Kind.isOpen, Bool.or_eq_true, decide_eq_true_eq] at hopen
    rcases hopen with (rfl | rfl) | rfl
    · obtain ⟨hfeed, hlayout, hend⟩ := (runLexeme_append_eq_left hl).1 hlexeme
      obtain ⟨c, l, rfl⟩ := List.exists_cons_of_ne_nil hl
      obtain rfl : c = '\n' := by simpa using hfeed c rfl
      exact h.lexesTo_lineEnd hlayout hend hmid
    · obtain ⟨hhash, hline, hend⟩ := (runLexeme_append_eq_left hl).1 hlexeme
      obtain ⟨c, l, rfl⟩ := List.exists_cons_of_ne_nil hl
      obtain rfl : c = '#' := by simpa using hhash c rfl
      refine h.lexesTo_comment (fun hmem => ?_) (fun c hc => by simpa using hend c hc) hmid
      exact absurd (hline _ hmem) (by decide)
    · obtain ⟨hspace, -⟩ := takeWhile_append_eq_left.1 hlexeme
      exact (lexesTo_append_of_isSpace hspace).2 (h.lexesTo hmid)
  · refine .cut (firstLexeme_exchange hfirst (h.calmer []) ?_ ?_) (h.lexesTo hmid)
    · exact fun hopen' => absurd hopen' hopen
    · exact fun hunquote => absurd hunquote hk

end Filling

theorem ScansTo.spelled_ne_nil (h : ScansTo pos cs pieces rest) (hne : pieces ≠ []) :
    spelled pieces ≠ [] := by
  obtain ⟨t, ts, rfl⟩ := List.exists_cons_of_ne_nil hne
  intro hnil
  rw [spelled_cons, List.append_eq_nil_iff] at hnil
  exact h.nonempty t List.mem_cons_self (String.toList_eq_nil_iff.1 hnil.1)

/-- **A filling behind some pieces leaves all words as they are**, unless the last of the pieces is
an unquotation. -/
theorem ScansTo.lexesTo_insert (h : ScansTo pos cs pieces mid) (hfill : Filling text mid)
    (hlast : ∀ t ∈ pieces.getLast?, t.kind ≠ .unquote) (hmid : LexesTo mid ws) :
    LexesTo (spelled pieces ++ (text ++ mid)) (words pieces ++ ws) := by
  induction h with
  | here => exact hfill.lexesTo hmid
  | @cut pos l after mid k pieces hfirst hrest ih =>
    obtain rfl := hrest.eq_append
    rw [spelled_cons, String.toList_ofList, words_cons, List.append_assoc, List.append_assoc]
    by_cases hpieces : pieces = []
    · subst hpieces
      exact hfill.lexesTo_cut hfirst (hlast _ rfl) hmid
    · -- what follows this piece begins as before, with the next piece
      obtain ⟨c, f, hf⟩ := List.exists_cons_of_ne_nil (hrest.spelled_ne_nil hpieces)
      refine .cut (firstLexeme_exchange hfirst (hfill.calmer _) ?_ ?_) (ih hfill ?_ hmid)
      · intro _ d hd
        rwa [hf] at hd ⊢
      · intro _
        rw [hf]
        rfl
      · rwa [List.getLast?_cons_of_ne_nil hpieces] at hlast

/-! ## Sources -/

/-- The source with another text put in at an offset. -/
def insertAt (source : String) (offset : Nat) (text : String) : String :=
  String.ofList (source.toList.take offset ++ (text.toList ++ source.toList.drop offset))

/-- Whether the text consists of blanks. -/
def isBlank (text : String) : Bool :=
  text.toList.all isSpace

/-- Whether the text is a comment of one line, without quotes. -/
def isRemark (text : String) : Bool :=
  match text.toList with
  | '#' :: body => !body.contains '\n' && !body.contains '"'
  | _ => false

/-- A line of the source ends at the offset: a line end starts there, or it is the end. -/
def EndsLine (source : String) (offset : Nat) : Prop :=
  offset = source.length ∨
    ∃ t ∈ (scan 0 source.toList).pieces, t.kind = .newline ∧ t.pos = offset

instance (source : String) (offset : Nat) : Decidable (EndsLine source offset) :=
  inferInstanceAs (Decidable (_ ∨ _))

/-- The text may be put into the source at the offset: between pieces, but not behind an
unquotation, and only at the end of a line if it is a comment. -/
structure Fits (source : String) (offset : Nat) (text : String) : Prop where
  boundary : offset ∈ boundaries source
  apart : ∀ t ∈ (scan 0 source.toList).pieces, t.kind = .unquote → t.stop ≠ offset
  filling : isBlank text = true ∨ (isRemark text = true ∧ EndsLine source offset)

theorem Contiguous.stop_of_getLast? {ts : List Token} {start stop : Int}
    (h : Contiguous start ts stop) : ∀ t ∈ ts.getLast?, t.stop = stop := by
  induction ts generalizing start with
  | nil => exact fun t ht => nomatch ht
  | cons t ts ih =>
    obtain ⟨-, h⟩ := h
    by_cases hts : ts = []
    · subst hts
      intro u hu
      obtain rfl := Option.some.inj hu
      exact h
    · rw [List.getLast?_cons_of_ne_nil hts]
      exact ih h

/-- Where a line of a scanned source ends, a line feed follows if anything does. -/
theorem ScansTo.head_of_endsLine (h : ScansTo 0 source.toList (scan 0 source.toList).pieces [])
    {offset : Nat} (hend : EndsLine source offset) :
    ∀ c ∈ (source.toList.drop offset).head?, c = '\n' := by
  rcases hend with rfl | ⟨t, ht, hk, hpos⟩
  · rw [← String.length_toList, List.drop_length]
    exact fun c hc => nomatch hc
  · intro c hc
    obtain ⟨d, l, htext, hlead⟩ := ((cuts_iff_scansTo.2 h).lexical t ht).exists_cons
    rw [hk] at hlead
    have hslice := congrArg String.toList (h.slices (List.nil_append _).symm rfl t ht)
    rw [slice, String.toList_ofList, hpos, Int.toNat_natCast, htext] at hslice
    have hhead := congrArg List.head? hslice
    rw [List.head?_drop, List.getElem?_take] at hhead
    rw [List.head?_drop] at hc
    split at hhead
    · obtain rfl := Option.some.inj (hc.symm.trans hhead)
      exact of_decide_eq_true hlead
    · cases hhead

/-- A text that fits is a filling at its place. -/
theorem Fits.filling_drop {offset : Nat} {text : String} (hfits : Fits source offset text)
    (h : ScansTo 0 source.toList (scan 0 source.toList).pieces []) :
    Filling text.toList (source.toList.drop offset) := by
  rcases hfits.filling with hblank | ⟨hremark, hend⟩
  · exact .blanks (List.all_eq_true.1 hblank)
  · rw [isRemark] at hremark
    split at hremark
    · next body hbody =>
      rw [hbody]
      simp only [Bool.and_eq_true, Bool.not_eq_true', List.contains_eq_mem,
        decide_eq_false_iff_not] at hremark
      exact .comment hremark.1 hremark.2 (h.head_of_endsLine hend)
    · cases hremark

/-- **Layout says nothing.**  Blanks between the pieces of a source, or a comment at the end of one
of its lines, leave the words of its tokens as they are. -/
theorem tokenize_insertAt {tokens : List Token} (h : tokenize source = .ok tokens) {offset : Nat}
    {text : String} (hfits : Fits source offset text) :
    ∃ tokens', tokenize (insertAt source offset text) = .ok tokens' ∧
      tokens'.map word = tokens.map word := by
  obtain ⟨rest, hscan, hnone⟩ := scansTo_scan 0 source.toList
  rw [tokenize, hscan.tokenizeWith_eq hnone] at h
  split at h
  · next hrest =>
    subst hrest
    obtain rfl := Except.ok.inj h
    have hfill := hfits.filling_drop hscan
    obtain ⟨front, back, mid, hpieces, hoffset, hfront, hback⟩ :=
      hscan.exists_of_boundary hfits.boundary
    rw [Nat.zero_add] at hoffset
    have hsource := hfront.eq_append
    have hdrop : source.toList.drop offset = mid := by rw [hsource, hoffset, List.drop_left]
    have htake : source.toList.take offset = spelled front := by
      rw [hsource, hoffset, List.take_left]
    have hlast : ∀ t ∈ front.getLast?, t.kind ≠ .unquote := by
      intro t ht hk
      refine hfits.apart t ?_ hk ?_
      · rw [hpieces]
        exact List.mem_append_left _ (List.mem_of_getLast? ht)
      · rw [hfront.contiguous.stop_of_getLast? t ht, hoffset]
        simp
    rw [hdrop] at hfill
    have hlexes := hfront.lexesTo_insert hfill hlast hback.lexesTo
    obtain ⟨pieces, hscan', hwords⟩ := hlexes.exists_scansTo 0
    rw [← htake, ← hdrop, ← String.toList_ofList (l := _ ++ _)] at hscan'
    refine ⟨_, ?_, hwords.trans ?_⟩
    · rw [insertAt, tokenize, hscan'.tokenizeWith_eq rfl, if_pos rfl]
    · rw [hpieces]
      simp [words]
  · cases h

end Juxta.Token
