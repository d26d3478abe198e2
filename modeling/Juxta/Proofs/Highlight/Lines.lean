import Juxta.Proofs.Highlight
import Juxta.Proofs.Token.Layout

/-!
# Lexing line by line

An editor cuts every line of a document into pieces by itself, an evaluator cuts the document as a
whole.  The pieces differ where lines meet: in the document a line end takes the indentation of the
next line along, and with it all lines before that which are blank.  What is neither a line end nor
white space is the same both ways, as long as no string goes on behind the end of its line, and no
line end takes characters that could not stand in a line by themselves, carriage returns and form
feeds.

## What is here

* `Token.KeepsToLine` — a piece that can be found in its line alone.
* `Token.ScansTo.firstLine` — the pieces of a document up to its first line end are those of its
  first line.
* `Token.ScansTo.of_lineEnd` — behind a line end the pieces are those of the text behind the line
  feed, layout aside.
* `Token.LinesScan pos lines piecess` — the lines are cut into these pieces, each by itself.
* `Token.ScansTo.exists_linesScan` — the pieces of a document come from its lines.
* `Highlight.documentLine?_eq_none_iff` — which lines can be shown.
* `Highlight.lines_agree_with_document` — lines are highlighted as the document is evaluated.
-/

set_option autoImplicit false
namespace Juxta

namespace Token

variable {pos : Nat} {cs l after line rest : List Char} {k : Kind} {pieces back : List Token}
  {n t : Token} {piecess : List (List Token)}

/-! ## Pieces in one line -/

/-- The piece is no string with a line feed in it, and no line end with layout that could not stand
in a line by itself. -/
structure KeepsToLine (t : Token) : Prop where
  string : t.kind = .string → '\n' ∉ t.text.toList
  newline : t.kind = .newline → '\r' ∉ t.text.toList ∧ '\x0c' ∉ t.text.toList

/-- Only strings and line ends have line feeds in them. -/
theorem newline_notMem_of_lexeme (h : k.lexeme cs = l) (hl : l ≠ []) (hstring : k ≠ .string)
    (hnewline : k ≠ .newline) : '\n' ∉ l := by
  intro hmem
  cases k with
  | string => exact hstring rfl
  | newline => exact hnewline rfl
  | float =>
    obtain ⟨whole, places, rfl, -, hwhole, hplaces⟩ := parts_of_floatLexeme h hl
    rcases List.mem_append.1 hmem with hmem | hmem
    · exact absurd (hwhole _ hmem) (by decide)
    · exact absurd (hplaces _ ((List.mem_cons.1 hmem).resolve_left (by decide))) (by decide)
  | integer | leftOperator | whitespace => exact absurd (all_of_takeWhile h _ hmem) (by decide)
  | rightOperator =>
    simp only [Kind.lexeme, rightOperatorLexeme.eq_def] at h
    split at h <;> subst h <;> exact absurd hmem (by decide)
  | unquote =>
    simp only [Kind.lexeme, unquoteLexeme.eq_def] at h
    split at h <;> subst h <;> exact absurd hmem (by decide)
  | quote | punctuation =>
    obtain ⟨c, l, rfl⟩ := List.exists_cons_of_ne_nil hl
    obtain ⟨hc, rfl⟩ := head_of_charLexeme h
    rw [← List.mem_singleton.1 hmem] at hc
    exact absurd hc (by decide)
  | ident | comment =>
    obtain ⟨c, l, rfl⟩ := List.exists_cons_of_ne_nil hl
    obtain ⟨hc, hothers⟩ := head_of_runLexeme h
    rcases List.mem_cons.1 hmem with rfl | hmem
    · exact absurd hc (by decide)
    · exact absurd (hothers _ hmem) (by decide)

/-- A piece that keeps to its line takes a line feed only as a line end. -/
theorem KeepsToLine.head?_eq (h : (⟨k, String.ofList l, pos⟩ : Token).KeepsToLine)
    (hfirst : firstLexeme cs = some (k, l)) (hmem : '\n' ∈ l) : l.head? = some '\n' := by
  have hlexeme := lexeme_of_firstLexeme hfirst
  have hne := ne_nil_of_firstLexeme hfirst
  have hnewline : k = .newline := by
    by_contra hk
    refine newline_notMem_of_lexeme hlexeme hne ?_ hk hmem
    rintro rfl
    exact h.string rfl (by rwa [String.toList_ofList])
  subst hnewline
  obtain ⟨c, l, rfl⟩ := List.exists_cons_of_ne_nil hne
  rw [List.head?_cons, of_decide_eq_true (Kind.leads_of_lexeme hlexeme)]

/-- A text without line feeds has no line ends. -/
theorem ScansTo.kind_ne_newline (h : ScansTo pos line pieces []) (hline : '\n' ∉ line) :
    ∀ t ∈ pieces, t.kind ≠ .newline := by
  intro t ht hk
  obtain ⟨c, l, htext, hc⟩ := ((cuts_iff_scansTo.2 h).lexical t ht).exists_cons
  rw [hk] at hc
  obtain rfl := of_decide_eq_true hc
  have hmem : '\n' ∈ t.text.toList := htext ▸ List.mem_cons_self
  rw [h.eq_append, List.append_nil] at hline
  exact hline (List.mem_flatMap.2 ⟨t, ht, hmem⟩)

/-- A lexeme that ends in its line is found in the line alone. -/
theorem firstLexeme_of_line {w : List Char}
    (h : firstLexeme (l ++ (w ++ '\n' :: rest)) = some (k, l)) :
    firstLexeme (l ++ w) = some (k, l) := by
  refine firstLexeme_exchange h (calmer_append _ _) (fun _ => startsAs_append _ _) ?_
  rintro rfl
  -- the parenthesis behind an unquotation is no line feed
  obtain ⟨-, rest', hrest⟩ :=
    parts_of_unquoteLexeme (lexeme_of_firstLexeme h) (ne_nil_of_firstLexeme h)
  cases w with
  | nil => cases hrest
  | cons c w => rfl

/-- **The pieces of a document up to its first line end are those of its first line.** -/
theorem ScansTo.firstLine (h : ScansTo pos (line ++ '\n' :: rest) pieces []) (hline : '\n' ∉ line)
    (hkeep : ∀ t ∈ pieces, t.KeepsToLine) :
    ∃ front n back, pieces = front ++ n :: back ∧ ScansTo pos line front [] ∧
      ScansTo (pos + line.length) ('\n' :: rest) (n :: back) [] := by
  generalize hcs : line ++ '\n' :: rest = cs at h
  generalize hend : ([] : List Char) = last at h
  induction h generalizing line with
  | here =>
    subst hend
    exact absurd hcs (by simp)
  | @cut pos l after last k pieces hfirst hrest ih =>
    subst hend
    obtain ⟨hpiece, hkeep⟩ := List.forall_mem_cons.1 hkeep
    have hinside : ∀ w, line = l ++ w → after = w ++ '\n' :: rest →
        ∃ front n back, ⟨k, String.ofList l, ↑pos⟩ :: pieces = front ++ n :: back ∧
          ScansTo pos line front [] ∧
          ScansTo (pos + line.length) ('\n' :: rest) (n :: back) [] := by
      rintro w rfl rfl
      obtain ⟨front, n, back, rfl, hfront, hback⟩ :=
        ih (fun hmem => hline (List.mem_append_right l hmem)) hkeep rfl rfl
      rw [Nat.add_assoc, ← List.length_append] at hback
      exact ⟨_ :: front, n, back, rfl, .cut (firstLexeme_of_line hfirst) hfront, hback⟩
    rcases List.append_eq_append_iff.1 hcs with ⟨w, hl, hafter⟩ | ⟨w, hl, hafter⟩
    · cases w with
      | nil => exact hinside [] (by simpa using hl.symm) (by simpa using hafter.symm)
      | cons c w =>
        -- the piece takes the line feed, and so it is the line end
        obtain ⟨rfl, -⟩ := List.cons.inj hafter
        have hmem : '\n' ∈ l := hl ▸ List.mem_append_right line List.mem_cons_self
        have hlead := hpiece.head?_eq hfirst hmem
        cases line with
        | nil =>
          refine ⟨[], _, pieces, rfl, .here, ?_⟩
          rw [List.nil_append] at hcs
          rw [hcs]
          exact .cut hfirst hrest
        | cons d line =>
          rw [hl] at hlead
          obtain rfl := Option.some.inj hlead
          exact absurd List.mem_cons_self hline
    · exact hinside w hl hafter

/-! ## Behind a line end -/

/-- A piece in front of a text that is scanned, if there is anything for it to take. -/
theorem ScansTo.cut_or_nil (hfirst : l ≠ [] → firstLexeme (l ++ after) = some (k, l))
    (h : ScansTo (pos + l.length) after back rest) :
    ∃ ps, (∀ t ∈ ps, t.kind = k ∧ t.text.toList = l) ∧
      ScansTo pos (l ++ after) (ps ++ back) rest := by
  by_cases hl : l = []
  · subst hl
    exact ⟨[], List.forall_mem_nil _, h⟩
  · exact ⟨[_], List.forall_mem_singleton.2 ⟨rfl, String.toList_ofList⟩, .cut (hfirst hl) h⟩

/-- In layout without carriage returns and form feeds a line feed comes behind the blanks at its
start, if anything does. -/
theorem head_dropWhile_isSpace (hl : ∀ c ∈ l, isLayout c = true) (hreturn : '\r' ∉ l)
    (hfeed : '\x0c' ∉ l) : ∀ c ∈ (l.dropWhile isSpace).head?, c = '\n' := by
  intro c hc
  have hmem : c ∈ l := (List.dropWhile_sublist isSpace).subset (List.mem_of_mem_head? hc)
  have hblank : isSpace c = false := by
    have hdrop := List.head?_dropWhile_not isSpace l
    rw [hc] at hdrop
    simpa using hdrop
  have hlayout := hl c hmem
  simp only [isLayout, isSpace, Bool.or_eq_true, Bool.or_eq_false_iff, decide_eq_true_eq,
    decide_eq_false_iff_not] at hlayout hblank
  rcases hlayout with (((rfl | rfl) | rfl) | rfl) | rfl
  · exact absurd rfl hblank.2
  · rfl
  · exact absurd hmem hfeed
  · exact absurd hmem hreturn
  · exact absurd rfl hblank.1

/-- Layout in front of a text that is scanned becomes blanks and a line end, or one of them, or
nothing. -/
theorem ScansTo.cut_layout (hl : ∀ c ∈ l, isLayout c = true) (hreturn : '\r' ∉ l)
    (hfeed : '\x0c' ∉ l) (hafter : ∀ c ∈ after.head?, isLayout c = false)
    (h : ScansTo (pos + l.length) after back rest) :
    ∃ blanks, (∀ t ∈ blanks, t.KeepsToLine ∧ Highlight.isShown t = false) ∧
      ScansTo pos (l ++ after) (blanks ++ back) rest := by
  have hsplit := List.takeWhile_append_dropWhile (p := isSpace) (l := l)
  have hhead := head_dropWhile_isSpace hl hreturn hfeed
  generalize hspaces : l.takeWhile isSpace = spaces at hsplit
  generalize l.dropWhile isSpace = lines at hsplit hhead
  subst hsplit
  have hsublines : ∀ c ∈ lines, c ∈ spaces ++ lines := fun c => List.mem_append_right spaces
  rw [List.length_append, ← Nat.add_assoc] at h
  have hlineEnd : lines ≠ [] → firstLexeme (lines ++ after) = some (.newline, lines) := by
    intro hne
    obtain ⟨c, lines, rfl⟩ := List.exists_cons_of_ne_nil hne
    obtain rfl := hhead c rfl
    exact firstLexeme_lineEnd (fun d hd => hl d (hsublines d (List.mem_cons_of_mem _ hd))) hafter
  have hblanks : spaces ≠ [] →
      firstLexeme (spaces ++ (lines ++ after)) = some (.whitespace, spaces) := by
    intro hne
    refine firstLexeme_whitespace hne (all_of_takeWhile hspaces) fun c hc => ?_
    cases lines with
    | nil =>
      have hlayout := hafter c hc
      simp only [isLayout, isSpace, Bool.or_eq_false_iff] at hlayout ⊢
      exact ⟨hlayout.2, hlayout.1.1.1.1⟩
    | cons d lines =>
      rw [hhead c hc]
      rfl
  obtain ⟨ns, hns, h⟩ := h.cut_or_nil hlineEnd
  obtain ⟨ws, hws, h⟩ := h.cut_or_nil hblanks
  refine ⟨ws ++ ns, ?_, ?_⟩
  · refine List.forall_mem_append.2 ⟨fun t ht => ?_, fun t ht => ?_⟩
    · obtain ⟨hk, -⟩ := hws t ht
      exact ⟨⟨by simp [hk], by simp [hk]⟩, by simp [Highlight.isShown, hk]⟩
    · obtain ⟨hk, htext⟩ := hns t ht
      refine ⟨⟨by simp [hk], fun _ => ?_⟩, by simp [Highlight.isShown, hk]⟩
      rw [htext]
      exact ⟨fun hmem => hreturn (hsublines _ hmem), fun hmem => hfeed (hsublines _ hmem)⟩
  · rw [List.append_assoc, List.append_assoc]
    exact h

/-- **Behind a line end the pieces are those of the text behind the line feed, layout aside.** -/
theorem ScansTo.of_lineEnd (h : ScansTo pos ('\n' :: rest) (n :: back) []) (hn : n.KeepsToLine) :
    Highlight.isShown n = false ∧
      ∃ blanks, (∀ t ∈ blanks, t.KeepsToLine ∧ Highlight.isShown t = false) ∧
        ScansTo (pos + 1) rest (blanks ++ back) [] := by
  generalize hcs : '\n' :: rest = cs at h
  cases h with
  | @cut _ l after _ k _ hfirst hrest =>
    rw [← hcs, firstLexeme_newline] at hfirst
    obtain ⟨rfl, rfl⟩ := Prod.mk.inj (Option.some.inj hfirst)
    have hrests : rest = rest.takeWhile isLayout ++ after := (List.cons.inj hcs).2
    obtain ⟨hreturn, hfeed⟩ := hn.newline rfl
    rw [String.toList_ofList] at hreturn hfeed
    have htake : (rest.takeWhile isLayout ++ after).takeWhile isLayout =
        rest.takeWhile isLayout := by rw [← hrests]
    refine ⟨rfl, ?_⟩
    rw [List.length_cons, Nat.add_comm _ 1, ← Nat.add_assoc] at hrest
    obtain ⟨blanks, hblanks, hscan⟩ := hrest.cut_layout (all_of_takeWhile rfl)
      (fun hmem => hreturn (List.mem_cons_of_mem _ hmem))
      (fun hmem => hfeed (List.mem_cons_of_mem _ hmem)) (takeWhile_append_eq_left.1 htake).2
    rw [← hrests] at hscan
    exact ⟨blanks, hblanks, hscan⟩

/-! ## All lines -/

/-- The lines, the first of which starts at offset `pos`, are cut into these pieces, each by
itself. -/
inductive LinesScan : Nat → List String → List (List Token) → Prop
  | nil {pos : Nat} : LinesScan pos [] []
  | cons {pos : Nat} {line : String} {lines : List String} {pieces : List Token}
      {piecess : List (List Token)} (hline : '\n' ∉ line.toList)
      (hscan : ScansTo pos line.toList pieces [])
      (hrest : LinesScan (pos + line.length + 1) lines piecess) :
      LinesScan pos (line :: lines) (pieces :: piecess)

theorem LinesScan.cons_ofList {lines : List String} (hline : '\n' ∉ line)
    (hscan : ScansTo pos line pieces []) (hrest : LinesScan (pos + line.length + 1) lines piecess) :
    LinesScan pos (String.ofList line :: lines) (pieces :: piecess) := by
  refine .cons ?_ ?_ ?_
  · rwa [String.toList_ofList]
  · rwa [String.toList_ofList]
  · rwa [String.length_ofList]

/-- **The pieces of a document come from its lines**, line ends and white space aside. -/
theorem ScansTo.exists_linesScan (h : ScansTo pos cs pieces [])
    (hkeep : ∀ t ∈ pieces, t.KeepsToLine) :
    ∃ piecess, LinesScan pos ((Text.splitLines cs).map String.ofList) piecess ∧
      piecess.flatten.filter Highlight.isShown = pieces.filter Highlight.isShown := by
  induction cs using Text.splitLines_induction generalizing pos pieces with
  | last line hline =>
    refine ⟨[pieces], ?_, by simp⟩
    rw [Text.splitLines_of_notMem hline]
    exact .cons_ofList hline h .nil
  | more line rest hline ih =>
    obtain ⟨front, e, back, rfl, hfront, hback⟩ := h.firstLine hline hkeep
    obtain ⟨-, hkeep⟩ := List.forall_mem_append.1 hkeep
    obtain ⟨he, hkeep⟩ := List.forall_mem_cons.1 hkeep
    obtain ⟨hshown, blanks, hblanks, hrest⟩ := hback.of_lineEnd he
    have hkeep' : ∀ t ∈ blanks ++ back, t.KeepsToLine :=
      List.forall_mem_append.2 ⟨fun t ht => (hblanks t ht).1, hkeep⟩
    obtain ⟨piecess, hscans, hfilter⟩ := ih hrest hkeep'
    refine ⟨front :: piecess, ?_, ?_⟩
    · rw [Text.splitLines_append hline]
      exact .cons_ofList hline hfront hscans
    · have hnone : blanks.filter Highlight.isShown = [] :=
        List.filter_eq_nil_iff.2 fun t ht => by simp [(hblanks t ht).2]
      rw [List.flatten_cons, List.filter_append, hfilter, List.filter_append, hnone,
        List.nil_append, List.filter_append, List.filter_cons_of_neg (by simp [hshown])]

/-! ## Where lines start -/

/-- The offset at which a line starts, when lines are counted from zero. -/
def lineStart : List String → Nat → Nat
  | line :: lines, i + 1 => line.length + 1 + lineStart lines i
  | _, _ => 0

theorem add_lineStart_succ (pos : Nat) (line : String) (lines : List String) (i : Nat) :
    pos + lineStart (line :: lines) (i + 1) = pos + line.length + 1 + lineStart lines i := by
  rw [lineStart, ← Nat.add_assoc, ← Nat.add_assoc]

/-- Whether a token stands on the line that starts at the given offset. -/
def isOnLine (start : Nat) (line : String) (t : Token) : Bool :=
  start ≤ t.pos && t.stop ≤ start + line.length

theorem isOnLine_iff {start : Nat} {line : String} :
    t.isOnLine start line = true ↔ start ≤ t.pos ∧ t.stop ≤ start + line.length := by
  rw [isOnLine, Bool.and_eq_true, decide_eq_true_eq, decide_eq_true_eq]

theorem ScansTo.forall_isOnLine {line : String} (h : ScansTo pos line.toList pieces []) :
    ∀ t ∈ pieces, t.isOnLine pos line = true := by
  have hcontiguous := h.contiguous
  have hlength := congrArg List.length h.eq_append
  rw [List.append_nil, String.length_toList] at hlength
  rw [← hlength] at hcontiguous
  exact fun t ht => isOnLine_iff.2 ⟨hcontiguous.le t ht, hcontiguous.stop_le t ht⟩

theorem ScansTo.pos_lt_stop (h : ScansTo pos cs pieces rest) : ∀ t ∈ pieces, t.pos < t.stop := by
  intro t ht
  have hlength : 0 < t.text.length := by
    rw [← String.length_toList]
    exact List.length_pos_iff.2 fun hnil => h.nonempty t ht (String.toList_eq_nil_iff.1 hnil)
  rw [stop]
  omega

namespace LinesScan

variable {line : String} {lines : List String}

/-- No piece of a line stands before the first line. -/
theorem le_pos (h : LinesScan pos lines piecess) :
    ∀ t ∈ piecess.flatten, pos ≤ t.pos ∧ t.pos < t.stop := by
  induction h with
  | nil => exact List.forall_mem_nil _
  | cons _ hscan _ ih =>
    rw [List.flatten_cons]
    refine List.forall_mem_append.2 ⟨fun t ht => ?_, fun t ht => ?_⟩
    · exact ⟨hscan.contiguous.le t ht, hscan.pos_lt_stop t ht⟩
    · obtain ⟨hle, hlt⟩ := ih t ht
      exact ⟨by omega, hlt⟩

/-- Every piece stands on one of the lines. -/
theorem exists_isOnLine (h : LinesScan pos lines piecess) :
    ∀ t ∈ piecess.flatten, ∃ (i : Nat) (line : String), lines[i]? = some line ∧
      t.isOnLine (pos + lineStart lines i) line = true := by
  induction h with
  | nil => exact List.forall_mem_nil _
  | @cons pos line lines pieces piecess _ hscan _ ih =>
    rw [List.flatten_cons]
    refine List.forall_mem_append.2 ⟨fun t ht => ⟨0, line, rfl, hscan.forall_isOnLine t ht⟩, ?_⟩
    intro t ht
    obtain ⟨i, line', hget, hon⟩ := ih t ht
    exact ⟨i + 1, line', hget, add_lineStart_succ pos line lines i ▸ hon⟩

/-- **The pieces that stand on a line are those into which it is cut by itself.** -/
theorem filter_isOnLine (h : LinesScan pos lines piecess) {i : Nat} (hget : lines[i]? = some line) :
    '\n' ∉ line.toList ∧
      ScansTo (pos + lineStart lines i) line.toList
        (piecess.flatten.filter (·.isOnLine (pos + lineStart lines i) line)) [] := by
  induction h generalizing i with
  | nil => cases hget
  | @cons pos line' lines pieces piecess hline hscan hrest ih =>
    rw [List.flatten_cons, List.filter_append]
    cases i with
    | zero =>
      obtain rfl := Option.some.inj hget
      refine ⟨hline, ?_⟩
      have hhere : pieces.filter (·.isOnLine pos line') = pieces :=
        List.filter_eq_self.2 hscan.forall_isOnLine
      have hothers : piecess.flatten.filter (·.isOnLine pos line') = [] := by
        refine List.filter_eq_nil_iff.2 fun t ht hon => ?_
        obtain ⟨hle, hlt⟩ := hrest.le_pos t ht
        obtain ⟨-, hstop⟩ := isOnLine_iff.1 hon
        omega
      rw [show pos + lineStart (line' :: lines) 0 = pos from rfl, hhere, hothers, List.append_nil]
      exact hscan
    | succ i =>
      have hothers : pieces.filter
          (·.isOnLine (pos + line'.length + 1 + lineStart lines i) line) = [] := by
        refine List.filter_eq_nil_iff.2 fun t ht hon => ?_
        obtain ⟨-, hstop⟩ := isOnLine_iff.1 (hscan.forall_isOnLine t ht)
        obtain ⟨hstart, -⟩ := isOnLine_iff.1 hon
        have hlt := hscan.pos_lt_stop t ht
        omega
      rw [add_lineStart_succ, hothers, List.nil_append]
      exact ih hget

end LinesScan

/-- A text is cut in the same way wherever it starts. -/
theorem ScansTo.exists_shift {d : Nat} (h : ScansTo (pos + d) cs pieces rest) :
    ∃ ps, ScansTo pos cs ps rest ∧ pieces = ps.map (·.shift d) := by
  generalize hstart : pos + d = start at h
  induction h generalizing pos with
  | here => exact ⟨[], .here, rfl⟩
  | @cut start l after rest k pieces hfirst _ ih =>
    subst hstart
    obtain ⟨ps, hps, rfl⟩ := ih (Nat.add_right_comm pos l.length d)
    exact ⟨_, .cut hfirst hps, rfl⟩

end Token

namespace Highlight

open Token (lineStart KeepsToLine)

/-! ## Documents -/

theorem Shown.mem_of_mem {pos : Nat} {cs : List Char} {tokens : List Token} {fs : List Fragment}
    (h : Shown pos cs tokens fs) : ∀ t ∈ tokens, tokenFragment t ∈ fs := by
  induction h with
  | last => exact List.forall_mem_nil _
  | token _ _ ih =>
    refine List.forall_mem_cons.2 ⟨?_, fun u hu => ?_⟩
    · exact List.mem_append_right _ List.mem_cons_self
    · exact List.mem_append_right _ (List.mem_cons_of_mem _ (ih u hu))

/-- A line that the document has is highlighted by itself. -/
theorem documentLine?_eq {document text : String} {i : Nat}
    (hget : (Text.lines document)[i]? = some text) :
    documentLine? document i = some (line text) := by
  obtain ⟨hlt, -⟩ := List.getElem?_eq_some_iff.1 hget
  rw [documentLine?, if_pos (Int.ofNat_lt.2 hlt)]
  exact congrArg (Option.map line) hget

/-- Only in front of the first line there is nothing to show. -/
theorem documentLine?_eq_none_iff {document : String} {number : Int} :
    documentLine? document number = none ↔ number < -(Text.lines document).length := by
  rw [documentLine?]
  cases number with
  | ofNat i =>
    rw [numbered?, Int.ofNat_eq_natCast]
    split
    · rw [Option.map_eq_none_iff, List.getElem?_eq_none_iff]
      omega
    · exact iff_of_false nofun (by omega)
  | negSucc i =>
    rw [if_pos (by omega), Option.map_eq_none_iff, numbered?, List.getElem?_eq_none_iff,
      List.length_reverse]
    omega

/-- The tokens of a line that is scanned to its end. -/
theorem tokenize_line {text : String} {pieces : List Token}
    (h : Token.ScansTo 0 text.toList pieces []) (hline : '\n' ∉ text.toList) :
    Token.tokenizeWith true text = .ok (pieces.filter isShown) := by
  rw [h.tokenizeWith_eq Token.firstLexeme_nil, if_pos rfl, ← filter_isShown]
  refine congrArg _ (List.filter_eq_self.2 fun t ht => ?_).symm
  exact decide_eq_true (h.kind_ne_newline hline t (List.mem_filter.1 ht).1)

/-- **Highlighting line by line agrees with the document as a whole.**  The document has tokens, no
string among them has a line feed in it, and no line end has a carriage return or a form feed.  Then
it has tokens with comments as well, and they differ in nothing but these.  Every line by itself has
tokens, comments kept: they are the tokens of the document that stand on the line, line ends aside,
with their offsets counted from the start of the line, and the line is shown by them.  Every token
of the document, line ends aside, stands on some line, and is shown there in the style of its
class. -/
theorem lines_agree_with_document {document : String} {evaluated : List Token}
    (h : Token.tokenize document = .ok evaluated)
    (hstring : ∀ t ∈ evaluated, t.kind = .string → '\n' ∉ t.text.toList)
    (hnewline : ∀ t ∈ evaluated, t.kind = .newline →
      '\r' ∉ t.text.toList ∧ '\x0c' ∉ t.text.toList) :
    let lines := Text.lines document
    ∃ tokens, Token.tokenizeWith true document = .ok tokens ∧
      evaluated = tokens.filter (·.kind ≠ .comment) ∧
      (∀ (i : Nat) (text : String), lines[i]? = some text →
        ∃ ts, Token.tokenizeWith true text = .ok ts ∧
          (tokens.filter (·.kind ≠ .newline)).filter (·.isOnLine (lineStart lines i) text) =
            ts.map (·.shift (lineStart lines i)) ∧
          ∃ fs, documentLine? document i = some fs ∧
            (text ≠ "" → Shown 0 text.toList ts fs)) ∧
      ∀ t ∈ tokens, t.kind ≠ .newline →
        ∃ (i : Nat) (text : String), lines[i]? = some text ∧
          t.isOnLine (lineStart lines i) text = true ∧
          ∃ fs, documentLine? document i = some fs ∧ tokenFragment t ∈ fs := by
  intro lines
  obtain ⟨pieces, hcuts, rfl⟩ := Token.cuts_of_tokenize h
  have hscan := Token.cuts_iff_scansTo.1 hcuts
  have hkept {t : Token} (ht : t ∈ pieces) (hk : t.kind.isKept false = true) :
      t ∈ pieces.filter (·.kind.isKept false) := List.mem_filter.2 ⟨ht, hk⟩
  have hkeep : ∀ t ∈ pieces, t.KeepsToLine := fun t ht =>
    ⟨fun hk => hstring t (hkept ht (by rw [hk]; rfl)) hk,
      fun hk => hnewline t (hkept ht (by rw [hk]; rfl)) hk⟩
  obtain ⟨piecess, hlines, hfilter⟩ := hscan.exists_linesScan hkeep
  have hall := hscan.tokenizeWith_eq Token.firstLexeme_nil true
  rw [if_pos rfl] at hall
  have hshown := filter_isShown pieces
  generalize pieces.filter (·.kind.isKept true) = tokens at hall hshown
  rw [← hfilter] at hshown
  have hline : ∀ (i : Nat) (text : String), lines[i]? = some text →
      ∃ ts, Token.tokenizeWith true text = .ok ts ∧
        (tokens.filter (·.kind ≠ .newline)).filter (·.isOnLine (lineStart lines i) text) =
          ts.map (·.shift (lineStart lines i)) ∧
        ∃ fs, documentLine? document i = some fs ∧
          (text ≠ "" → Shown 0 text.toList ts fs) := by
    intro i text hget
    obtain ⟨hfeed, hcut⟩ := hlines.filter_isOnLine hget
    obtain ⟨ps, hps, hshift⟩ := hcut.exists_shift
    refine ⟨_, tokenize_line hps hfeed, ?_, _, documentLine?_eq hget, shown_line hps⟩
    rw [Nat.zero_add] at hshift
    have hshifted := congrArg (List.filter isShown) hshift
    rw [List.filter_map, List.filter_filter] at hshifted
    rw [hshown, List.filter_filter]
    simp only [Bool.and_comm (isShown _)] at hshifted
    exact hshifted
  refine ⟨tokens, hall, ?_, hline, fun t ht hk => ?_⟩
  · have hevaluated := Token.tokenizeWith_false document
    rw [hall] at hevaluated
    exact Except.ok.inj (h.symm.trans hevaluated)
  · have hmem : t ∈ tokens.filter (·.kind ≠ .newline) := List.mem_filter.2 ⟨ht, decide_eq_true hk⟩
    have hflat : t ∈ piecess.flatten := by
      rw [hshown] at hmem
      exact (List.mem_filter.1 hmem).1
    obtain ⟨i, text, hget, hon⟩ := hlines.exists_isOnLine t hflat
    rw [Nat.zero_add] at hon
    obtain ⟨ts, htokens, hts, fs, hfs, hshows⟩ := hline i text hget
    have hshifted : t ∈ ts.map (·.shift (lineStart lines i)) :=
      hts ▸ List.mem_filter.2 ⟨hmem, hon⟩
    obtain ⟨u, hu, rfl⟩ := List.mem_map.1 hshifted
    have hne : text ≠ "" := by
      rintro rfl
      obtain rfl := Except.ok.inj htokens
      exact absurd hu List.not_mem_nil
    exact ⟨i, text, hget, hon, fs, hfs, (hshows hne).mem_of_mem u hu⟩

/-- A comment with quotes, blank lines with layout, and an indented line with an unquotation and a
string with a quote in it. -/
theorem lines_agree_with_document_indented :
    let document := "# \"1\"\n\n\t \n  $(x) \"\\\"\""
    let text := "  $(x) \"\\\"\""
    Text.lines document = ["# \"1\"", "", "\t ", text] ∧
      ∃ tokens ts, Token.tokenizeWith true document = .ok tokens ∧
        Token.tokenizeWith true text = .ok ts ∧
        ts.map (·.text) = ["$", "(", "x", ")", "\"\\\"\""] ∧
        (tokens.filter (·.kind ≠ .newline)).filter (·.isOnLine 10 text) = ts.map (·.shift 10) ∧
        ∃ fs, documentLine? document 3 = some fs ∧ Shown 0 text.toList ts fs := by
  intro document text
  have hevaluated : Token.tokenize document = .ok [⟨.newline, "\n\n\t \n  ", 5⟩,
      ⟨.unquote, "$", 12⟩, ⟨.punctuation, "(", 13⟩, ⟨.ident, "x", 14⟩, ⟨.punctuation, ")", 15⟩,
      ⟨.string, "\"\\\"\"", 17⟩] := by decide +kernel
  have hts : Token.tokenizeWith true text = .ok [⟨.unquote, "$", 2⟩, ⟨.punctuation, "(", 3⟩,
      ⟨.ident, "x", 4⟩, ⟨.punctuation, ")", 5⟩, ⟨.string, "\"\\\"\"", 7⟩] := by decide +kernel
  have hlines : Text.lines document = ["# \"1\"", "", "\t ", text] := by decide +kernel
  obtain ⟨tokens, htokens, -, hline, -⟩ :=
    lines_agree_with_document hevaluated (by decide +kernel) (by decide +kernel)
  obtain ⟨ts, hok, hshift, fs, hfs, hshown⟩ := hline 3 text (by rw [hlines]; rfl)
  have hstart : lineStart (Text.lines document) 3 = 10 := by
    rw [hlines]
    decide +kernel
  rw [hstart] at hshift
  obtain rfl := Except.ok.inj (hts.symm.trans hok)
  exact ⟨hlines, tokens, _, htokens, hts, rfl, hshift, fs, hfs, hshown (by decide)⟩

end Highlight
end Juxta
