import Juxta.Highlight
import Juxta.Proofs.Token.Tiling

/-!
# Highlighting shows the tokens

The fragments of a line are its text, cut in another way.  A token that is shown is a fragment in
the style of its group, and whatever text lies between two of them, line ends included, is one
fragment without a style.  A text that is blocked somewhere is shown up to that place like a text
of its own, and the rest is one fragment that marks the error.

## What is here

* `Shown pos cs tokens fragments` — the text `cs`, which starts at offset `pos` and has these tokens
  in it, is shown by these fragments.  They are determined by it: `Shown.unique`.
* `Shown.joined_eq`, `Shown.nonempty` — what it says about the texts of the fragments.
* `shown_fragments` — what a scan has cut is shown so.
* `highlighting_shows_tokens` — the fragments of every text.
-/

set_option autoImplicit false
namespace Juxta.Highlight

variable {pos : Nat} {cs rest : List Char} {tokens pieces : List Token} {fs : List Fragment}

/-! ## How tokens are shown -/

/-- The fragment of a token. -/
def tokenFragment (t : Token) : Fragment :=
  ⟨(group t).style, t.text⟩

/-- Text without a token in it is one fragment, unless it is empty. -/
def plainFragments (cs : List Char) : List Fragment :=
  if cs = [] then [] else [⟨Group.plain.style, String.ofList cs⟩]

/-- The text `cs` starts at offset `pos`.  It consists of the tokens, each at its own offset, and of
what lies between, before and behind them, and the fragments show it so. -/
inductive Shown : Nat → List Char → List Token → List Fragment → Prop
  | last {pos : Nat} {gap : List Char} : Shown pos gap [] (plainFragments gap)
  | token {pos : Nat} {gap rest : List Char} {t : Token} {ts : List Token} {fs : List Fragment}
      (hpos : t.pos = ↑(pos + gap.length))
      (h : Shown (pos + gap.length + t.text.toList.length) rest ts fs) :
      Shown pos (gap ++ (t.text.toList ++ rest)) (t :: ts)
        (plainFragments gap ++ tokenFragment t :: fs)

/-- The text that fragments show. -/
def joined (fs : List Fragment) : String :=
  String.join (fs.map (·.text))

theorem joined_append (fs gs : List Fragment) : joined (fs ++ gs) = joined fs ++ joined gs := by
  rw [joined, List.map_append, String.join_append]
  rfl

theorem joined_cons (f : Fragment) (fs : List Fragment) : joined (f :: fs) = f.text ++ joined fs :=
  String.join_cons

@[simp] theorem joined_plainFragments (cs : List Char) :
    joined (plainFragments cs) = String.ofList cs := by
  rw [plainFragments]
  split
  · next hnil =>
    rw [hnil]
    rfl
  · rw [joined_cons]
    exact String.append_empty

theorem text_ne_of_mem_plainFragments : ∀ f ∈ plainFragments cs, f.text ≠ "" := by
  intro f hf
  rw [plainFragments] at hf
  split at hf
  · exact absurd hf List.not_mem_nil
  · next hne =>
    rw [List.mem_singleton.1 hf]
    exact fun hempty => hne (String.ofList_eq_empty_iff.1 hempty)

namespace Shown

/-- A piece that is shown as a token. -/
theorem cut {gap l : List Char} {k : Token.Kind}
    (h : Shown (pos + gap.length + l.length) rest tokens fs) :
    Shown pos (gap ++ (l ++ rest)) (⟨k, String.ofList l, ↑(pos + gap.length)⟩ :: tokens)
      (plainFragments gap ++ ⟨(group ⟨k, String.ofList l, ↑(pos + gap.length)⟩).style,
        String.ofList l⟩ :: fs) := by
  rw [← String.toList_ofList (l := l)] at h
  have hshown := Shown.token (t := ⟨k, String.ofList l, ↑(pos + gap.length)⟩) rfl h
  rwa [String.toList_ofList] at hshown

/-- **The fragments show the whole text.** -/
theorem joined_eq (h : Shown pos cs tokens fs) : joined fs = String.ofList cs := by
  induction h with
  | last => exact joined_plainFragments _
  | token _ _ ih =>
    rw [joined_append, joined_cons, ih, joined_plainFragments]
    simp [tokenFragment]

/-- No fragment is empty. -/
theorem nonempty (h : Shown pos cs tokens fs) (htokens : ∀ t ∈ tokens, t.text ≠ "") :
    ∀ f ∈ fs, f.text ≠ "" := by
  induction h with
  | last => exact text_ne_of_mem_plainFragments
  | token _ _ ih =>
    obtain ⟨ht, htokens⟩ := List.forall_mem_cons.1 htokens
    exact List.forall_mem_append.2
      ⟨text_ne_of_mem_plainFragments, List.forall_mem_cons.2 ⟨ht, ih htokens⟩⟩

/-- A text can be shown in one way only. -/
theorem unique {gs : List Fragment} (h : Shown pos cs tokens fs) (h' : Shown pos cs tokens gs) :
    fs = gs := by
  induction h generalizing gs with
  | last =>
    cases h' with
    | last => rfl
  | @token pos gap rest t ts fs hpos h ih =>
    generalize hcs : gap ++ (t.text.toList ++ rest) = cs at h'
    cases h' with
    | @token _ gap' rest' _ _ gs hpos' h' =>
      -- the token stands at one offset, which tells how much text comes before it
      have hlength : gap.length = gap'.length := by omega
      obtain ⟨rfl, hbehind⟩ := List.append_inj hcs hlength
      obtain rfl := List.append_cancel_left hbehind
      rw [ih h']

end Shown

/-! ## What a scan has cut -/

/-- Whether a piece is shown as a token: blanks and line ends are not. -/
def isShown (t : Token) : Bool :=
  t.kind ≠ .newline && t.kind ≠ .whitespace

theorem gap_eq_plainFragments (before gap after : List Char) :
    Highlight.gap (before ++ gap ++ after) before.length (before.length + gap.length) =
      plainFragments gap := by
  rw [Highlight.gap, plainFragments, ← List.length_append, List.take_left, List.drop_left]
  by_cases hgap : gap = []
  · simp [hgap]
  · have hpos := List.length_pos_iff.2 hgap
    rw [if_pos (by rw [List.length_append]; omega), if_neg hgap]

/-- **What a scan has cut is shown.**  The text `gap` in front of it has no token yet. -/
theorem shown_fragments (h : Token.ScansTo pos cs pieces rest) {all : List Char}
    (before gap : List Char) (hall : all = before ++ gap ++ cs)
    (hpos : pos = before.length + gap.length) :
    Shown before.length (gap ++ Token.spelled pieces) (pieces.filter isShown)
      (fragments all (pos + (Token.spelled pieces).length) before.length
        (pieces.filter isShown)) := by
  induction h generalizing before gap with
  | here =>
    subst hall hpos
    rw [Token.spelled_nil, List.append_nil, List.length_nil, Nat.add_zero, List.filter_nil,
      fragments, gap_eq_plainFragments]
    exact .last
  | @cut pos l after rest k pieces hfirst _ ih =>
    subst hpos
    have hstop : before.length + gap.length + l.length = (before ++ gap ++ l).length := by
      rw [List.length_append, List.length_append]
    rw [Token.spelled_cons, String.toList_ofList, List.length_append, ← Nat.add_assoc,
      List.filter_cons]
    split
    · have htoken : (⟨k, String.ofList l, ↑(before.length + gap.length)⟩ : Token).stop.toNat =
          before.length + gap.length + l.length := by
        rw [Token.stop, String.length_ofList, ← Int.natCast_add, Int.toNat_natCast]
      have hrest := ih (before ++ gap ++ l) [] (by simp [hall]) hstop
      rw [List.nil_append, ← hstop] at hrest
      rw [fragments, htoken, Int.toNat_natCast, hall, gap_eq_plainFragments]
      exact .cut (hall ▸ hrest)
    · have hrest := ih before (gap ++ l) (by simp [hall])
        (by rw [List.length_append, Nat.add_assoc])
      rwa [List.append_assoc] at hrest

/-! ## Texts -/

variable {text : String}

/-- The tokens of a text that are shown. -/
theorem filter_isShown (pieces : List Token) :
    (pieces.filter (·.kind.isKept true)).filter (·.kind ≠ .newline) = pieces.filter isShown := by
  rw [List.filter_filter]
  congr 1
  funext t
  simp [isShown, Token.Kind.isKept]

/-- The fragments of a text that is scanned as far as possible. -/
theorem line_eq (h : Token.ScansTo 0 text.toList pieces rest)
    (hnone : Token.firstLexeme rest = none) (hne : text ≠ "") :
    ∃ fs, Shown 0 (Token.spelled pieces) (pieces.filter isShown) fs ∧
      line text = if rest = [] then fs else fs ++ [⟨Group.error.style, String.ofList rest⟩] := by
  have hshown := shown_fragments h [] [] rfl rfl
  refine ⟨_, hshown, ?_⟩
  have hcs : text.toList.isEmpty = false := by
    simpa [List.isEmpty_eq_false_iff] using hne
  have hscan := h.scan_eq
  rw [Nat.zero_add] at hscan ⊢
  simp only [line, hcs, Bool.false_eq_true, if_false]
  by_cases hrest : rest = []
  · subst hrest
    have hlength := congrArg List.length h.eq_append
    rw [List.append_nil] at hlength
    rw [if_pos rfl, hscan]
    simp only [Token.scan_nil, List.append_nil]
    rw [hlength]
    rfl
  · rw [if_neg hrest, hscan]
    simp only [Token.scan_of_firstLexeme_eq_none hrest hnone, List.append_nil]
    rw [h.eq_append, List.drop_left]
    rfl

/-- A text that is scanned to its end is shown by its tokens. -/
theorem shown_line (h : Token.ScansTo 0 text.toList pieces []) (hne : text ≠ "") :
    Shown 0 text.toList (pieces.filter isShown) (line text) := by
  obtain ⟨fs, hshown, hline⟩ := line_eq h Token.firstLexeme_nil hne
  rw [hline, if_pos rfl, h.eq_append, List.append_nil]
  exact hshown

/-- A text that is blocked is shown up to that place as a text of its own. -/
theorem line_blocked (h : Token.ScansTo 0 text.toList pieces rest)
    (hnone : Token.firstLexeme rest = none) (hrest : rest ≠ []) :
    let good := String.ofList (Token.spelled pieces)
    line text = (if Token.spelled pieces = [] then [] else line good) ++
      [⟨Group.error.style, String.ofList rest⟩] := by
  intro good
  have hne : text ≠ "" := by
    rintro rfl
    have happend : [] = Token.spelled pieces ++ rest := h.eq_append
    exact hrest (List.append_eq_nil_iff.1 happend.symm).2
  obtain ⟨fs, hshown, hline⟩ := line_eq h hnone hne
  rw [hline, if_neg hrest]
  congr 1
  split
  · next hnil =>
    have hpieces : pieces = [] := by
      by_contra hne
      obtain ⟨t, ts, rfl⟩ := List.exists_cons_of_ne_nil hne
      have htext := (List.append_eq_nil_iff.1 hnil).1
      exact h.nonempty t List.mem_cons_self (String.toList_eq_nil_iff.1 htext)
    rw [hpieces] at hshown
    exact hshown.unique .last
  · next hgood =>
    have hgood : good ≠ "" := fun hempty => hgood (String.ofList_eq_empty_iff.1 hempty)
    have hfront := h.truncate hnone
    rw [← String.toList_ofList (l := Token.spelled pieces)] at hfront hshown
    exact hshown.unique (shown_line hfront hgood)

/-- **The fragments of a text join up to it.** -/
theorem joined_line (text : String) : joined (line text) = text := by
  by_cases hne : text = ""
  · subst hne
    rfl
  · obtain ⟨rest, hscan, hnone⟩ := Token.scansTo_scan 0 text.toList
    obtain ⟨fs, hshown, hline⟩ := line_eq hscan hnone hne
    have hall := congrArg String.ofList hscan.eq_append
    rw [String.ofList_toList, String.ofList_append, ← hshown.joined_eq] at hall
    rw [hline]
    split
    · next hrest =>
      rw [hall, hrest]
      exact String.append_empty.symm
    · rw [joined_append, hall]
      exact congrArg (joined fs ++ ·) ((joined_cons _ []).trans String.append_empty)

/-- No fragment of a text is empty. -/
theorem nonempty_line (hne : text ≠ "") : ∀ f ∈ line text, f.text ≠ "" := by
  obtain ⟨rest, hscan, hnone⟩ := Token.scansTo_scan 0 text.toList
  obtain ⟨fs, hshown, hline⟩ := line_eq hscan hnone hne
  have hfs := hshown.nonempty fun t ht => hscan.nonempty t (List.mem_filter.1 ht).1
  rw [hline]
  split
  · exact hfs
  · next hrest =>
    refine List.forall_mem_append.2 ⟨hfs, List.forall_mem_singleton.2 fun hempty => ?_⟩
    exact hrest (String.ofList_eq_empty_iff.1 hempty)

/-- **Highlighting shows the text unchanged and styles exactly the tokens.**  The fragments of a
text join up to it, and none of them is empty unless it is.  Where the text has tokens, comments
kept, each of them but the line ends is a fragment in the style of its group, and what lies between
them is shown as it is, without a style; an empty text is one empty fragment.  Where a lexical error
is found, the text before it, which has tokens, is shown by itself, if there is any, and the rest is
one fragment in the style of errors. -/
theorem highlighting_shows_tokens (text : String) :
    joined (line text) = text ∧ (text ≠ "" → ∀ f ∈ line text, f.text ≠ "") ∧
      match Token.tokenizeWith true text with
      | .ok tokens =>
        if text = "" then line text = [⟨Group.plain.style, ""⟩]
        else Shown 0 text.toList (tokens.filter (·.kind ≠ .newline)) (line text)
      | .error e =>
        let good := String.ofList (text.toList.take e.offset)
        let bad := String.ofList (text.toList.drop e.offset)
        line text = (if e.offset = 0 then [] else line good) ++ [⟨Group.error.style, bad⟩] ∧
          ∃ tokens, Token.tokenizeWith true good = .ok tokens := by
  refine ⟨joined_line text, nonempty_line, ?_⟩
  obtain ⟨rest, hscan, hnone⟩ := Token.scansTo_scan 0 text.toList
  generalize (Token.scan 0 text.toList).pieces = pieces at hscan
  rw [hscan.tokenizeWith_eq hnone]
  by_cases hrest : rest = []
  · subst hrest
    simp only [if_true]
    split
    · next hempty =>
      subst hempty
      rfl
    · next hne =>
      rw [filter_isShown]
      exact shown_line hscan hne
  · have htake := hscan.tokenizeWith_take hnone true
    have hline := line_blocked hscan hnone hrest
    rw [if_neg hrest]
    refine ⟨?_, _, htake⟩
    dsimp only
    rw [hscan.eq_append, List.take_left, List.drop_left]
    simpa only [List.length_eq_zero_iff] using hline

/-- A line with a comment, a line end and blanks, and one that is blocked behind a string. -/
theorem highlighting_shows_tokens_blocked :
    let text := "x := 1 # one\n  "
    let blocked := "f \"a\" ?b"
    joined (line text) = text ∧ (∀ f ∈ line text, f.text ≠ "") ∧
      line text = [⟨"", "x"⟩, ⟨"", " "⟩, ⟨"bold", ":="⟩, ⟨"", " "⟩, ⟨"ansimagenta", "1"⟩, ⟨"", " "⟩,
        ⟨"italic ansigray", "# one"⟩, ⟨"", "\n  "⟩] ∧
      line blocked = line "f \"a\" " ++ [⟨"bold ansired", "?b"⟩] := by
  intro text blocked
  have hblocked : Token.tokenizeWith true blocked = .error ⟨6, ⟨1, 7⟩⟩ := by decide
  have hshown := highlighting_shows_tokens text
  have hmarked := (highlighting_shows_tokens blocked).2.2
  rw [hblocked] at hmarked
  exact ⟨hshown.1, hshown.2.1 (by decide), by decide, hmarked.1.trans (by decide)⟩

end Juxta.Highlight
