import Juxta.Text.Position
import Mathlib.Data.List.Basic
import Mathlib.Data.List.Induction

/-!
# The map from offsets to positions

The loop over the lines of a text, which keeps a line number and the offset of the line, comes to
the position to which reading the text leads.  So the position of an offset can be read off the text
in front of it: its line is the number of line feeds there, and its column the distance from the
last of them.  The positions of later offsets come later in the order in which people read, so that
no two offsets of a text share one.

## What is here

* `Position.inLines_splitLines`, `Position.inLines_eq_none_iff` — what the loop over the lines comes
  to, by induction over the lines.
* `Position.ofOffset?_of_le`, `Position.ofOffset?_eq_none_iff`, `Position.ofOffset?_of_neg` — the
  position of every offset.
* `Position.down` — positions in a text that stands further down.
* `Position.lastLineFeed` — where the last line feed of a text is.
* `Position.start_after` — the position after reading a text.
* `Position.Precedes` — the order of reading; reading leads to later positions.
* `Position.position_map_exact` — the positions of all offsets, and how they change when a text is
  put below another one.
-/

set_option autoImplicit false
namespace Juxta.Position

variable {cs : List Char} {p q r : Position} {text : String}

/-! ## Going through the lines -/

/-- Within a line every character is one column further right. -/
theorem after_of_notMem (q : Position) (h : '\n' ∉ cs) :
    q.after cs = ⟨q.line, q.column + cs.length⟩ := by
  induction cs generalizing q with
  | nil => rw [after_nil, List.length_nil, Int.natCast_zero, Int.add_zero]
  | cons c cs ih =>
    obtain ⟨hc, hcs⟩ := not_or.1 (mt List.mem_cons.2 h)
    rw [after_cons, next, if_neg (Ne.symm hc), ih _ hcs, List.length_cons, Int.natCast_succ,
      Int.add_assoc, Int.add_comm 1]

/-- The loop stops at the line in which the offset is. -/
theorem inLines_cons_of_le {line : List Char} {lines : List String} {number start k : Nat}
    (hline : '\n' ∉ line) (hk : k ≤ line.length) :
    inLines ↑(start + k) number start (String.ofList line :: lines) =
      some ((⟨number, 1⟩ : Position).after (line.take k)) := by
  have hfront : '\n' ∉ line.take k := fun hmem => hline (List.mem_of_mem_take hmem)
  have hcolumn : ((start + k : Nat) : Int) - start + 1 = 1 + k := by omega
  rw [inLines, String.length_ofList, if_pos (by omega), after_of_notMem _ hfront, List.length_take,
    Nat.min_eq_left hk, hcolumn]

/-- The loop over the lines of a text comes to the position to which reading leads. -/
theorem inLines_splitLines (cs : List Char) {number start k : Nat} (hk : k ≤ cs.length) :
    inLines ↑(start + k) number start ((Text.splitLines cs).map String.ofList) =
      some ((⟨number, 1⟩ : Position).after (cs.take k)) := by
  induction cs using Text.splitLines_induction generalizing number start k with
  | last line hline =>
    rw [Text.splitLines_of_notMem hline, List.map_singleton, inLines_cons_of_le hline hk]
  | more line rest hline ih =>
    rw [Text.splitLines_append hline, List.map_cons]
    rcases Nat.lt_or_ge line.length k with hlt | hin
    · -- the offset is behind the line feed, `i` characters into the rest
      obtain ⟨i, rfl⟩ := Nat.exists_eq_add_of_lt hlt
      have hi : i ≤ rest.length := by
        rw [List.length_append, List.length_cons] at hk
        omega
      have hoffset : start + (line.length + i + 1) = start + (line.length + 1) + i := by omega
      rw [inLines, String.length_ofList, if_neg (by omega), hoffset, ih hi, Nat.add_assoc,
        List.take_length_add_append, List.take_succ_cons, after_append, after_cons,
        after_of_notMem _ hline, next, if_pos rfl]
    · rw [inLines_cons_of_le hline hin, List.take_append_of_le_length hin]

/-- The loop goes past all lines just for an offset beyond the text. -/
theorem inLines_eq_none_iff (cs : List Char) {offset : Int} {number start : Nat} :
    inLines offset number start ((Text.splitLines cs).map String.ofList) = none ↔
      start + cs.length < offset := by
  induction cs using Text.splitLines_induction generalizing number start with
  | last line hline =>
    rw [Text.splitLines_of_notMem hline, List.map_singleton, inLines, String.length_ofList]
    split
    · exact iff_of_false nofun (by omega)
    · exact iff_of_true rfl (by omega)
  | more line rest hline ih =>
    rw [Text.splitLines_append hline, List.map_cons, inLines, String.length_ofList,
      List.length_append, List.length_cons]
    split
    · exact iff_of_false nofun (by omega)
    · rw [ih]
      omega

/-- Every offset of a text has a position: reading the text in front of it leads there. -/
theorem ofOffset?_of_le {text : String} {offset : Nat} (h : offset ≤ text.length) :
    ofOffset? text offset = some (start.after (text.toList.take offset)) := by
  have hloop : inLines ↑(0 + offset) 1 0 (Text.lines text) =
      some (start.after (text.toList.take offset)) :=
    inLines_splitLines text.toList (String.length_toList ▸ h)
  rwa [Nat.zero_add] at hloop

/-- Only offsets beyond the end have no position. -/
theorem ofOffset?_eq_none_iff {offset : Int} :
    ofOffset? text offset = none ↔ text.length < offset := by
  rw [ofOffset?, Text.lines, inLines_eq_none_iff, String.length_toList, Int.natCast_zero,
    Int.zero_add]

/-- An offset before the text is on the first line, whatever the text is. -/
theorem ofOffset?_of_neg {offset : Int} (h : offset < 0) :
    ofOffset? text offset = some ⟨1, offset + 1⟩ := by
  cases hlines : Text.lines text with
  | nil => exact absurd hlines (Text.lines_ne_nil text)
  | cons line lines =>
    rw [ofOffset?, hlines, inLines, if_pos (by omega), Int.natCast_zero, Int.sub_zero]

/-! ## Positions further down -/

/-- The position in the same column, some lines further down. -/
def down (lines : Nat) (q : Position) : Position :=
  ⟨q.line + lines, q.column⟩

theorem next_down (lines : Nat) (q : Position) (c : Char) :
    (q.down lines).next c = (q.next c).down lines := by
  rw [next, next]
  split
  · rw [down, down, Nat.add_right_comm]
  · rfl

theorem after_down (lines : Nat) (q : Position) (cs : List Char) :
    (q.down lines).after cs = (q.after cs).down lines := by
  induction cs generalizing q with
  | nil => rfl
  | cons c cs ih => rw [after_cons, after_cons, next_down, ih]

/-! ## Lines and columns -/

/-- Every line feed leads to a new line. -/
theorem line_after (q : Position) (cs : List Char) :
    (q.after cs).line = q.line + cs.count '\n' := by
  induction cs generalizing q with
  | nil => rfl
  | cons c cs ih =>
    rw [after_cons, ih, next]
    by_cases hc : c = '\n'
    · rw [if_pos hc, hc, List.count_cons_self]
      exact Nat.add_right_comm q.line 1 _
    · rw [if_neg hc, List.count_cons_of_ne hc]

/-- The index of the last line feed of a text, or -1 if it has none. -/
def lastLineFeed (cs : List Char) : Int :=
  cs.length - 1 - cs.reverse.idxOf '\n'

theorem lastLineFeed_of_notMem (h : '\n' ∉ cs) : lastLineFeed cs = -1 := by
  rw [lastLineFeed, List.idxOf_eq_length (by simpa using h), List.length_reverse]
  omega

theorem lastLineFeed_append {before after : List Char} (h : '\n' ∉ after) :
    lastLineFeed (before ++ '\n' :: after) = before.length := by
  have hidx : (before ++ '\n' :: after).reverse.idxOf '\n' = after.length := by
    rw [List.reverse_append, List.reverse_cons, List.append_assoc,
      List.idxOf_append_of_notMem (by simpa using h), List.length_reverse]
    simp
  rw [lastLineFeed, hidx, List.length_append, List.length_cons]
  omega

theorem lastLineFeed_concat (cs : List Char) (c : Char) :
    lastLineFeed (cs ++ [c]) = if c = '\n' then ↑cs.length else lastLineFeed cs := by
  split
  · next hc =>
    subst hc
    exact lastLineFeed_append (List.not_mem_nil)
  · next hc =>
    rw [lastLineFeed, lastLineFeed, List.reverse_concat, List.idxOf_cons_ne _ hc,
      List.length_append, List.length_singleton]
    omega

/-- The column is the distance from the last line feed. -/
theorem column_start_after (cs : List Char) :
    (start.after cs).column = cs.length - lastLineFeed cs := by
  induction cs using List.reverseRecOn with
  | nil => rfl
  | append_singleton cs c ih =>
    rw [after_append, after_cons, after_nil, next, lastLineFeed_concat, List.length_append,
      List.length_singleton]
    split
    · dsimp only
      omega
    · dsimp only
      omega

theorem start_after (cs : List Char) :
    start.after cs = ⟨1 + cs.count '\n', cs.length - lastLineFeed cs⟩ := by
  have hline := line_after start cs
  have hcolumn := column_start_after cs
  cases hp : start.after cs with
  | mk line column =>
    rw [hp] at hline hcolumn
    exact congrArg₂ mk hline hcolumn

/-! ## The order of reading -/

/-- The position `p` is on an earlier line than `q`, or further left on the same one. -/
def Precedes (p q : Position) : Prop :=
  p.line < q.line ∨ p.line = q.line ∧ p.column < q.column

instance (p q : Position) : Decidable (p.Precedes q) :=
  inferInstanceAs (Decidable (_ ∨ _))

theorem Precedes.irrefl (p : Position) : ¬ p.Precedes p := by
  rintro (h | ⟨-, h⟩)
  · exact Nat.lt_irrefl _ h
  · exact Int.lt_irrefl _ h

theorem Precedes.trans (h : p.Precedes q) (h' : q.Precedes r) : p.Precedes r := by
  rw [Precedes] at h h' ⊢
  omega

theorem precedes_next (p : Position) (c : Char) : p.Precedes (p.next c) := by
  rw [next]
  split
  · exact .inl (Nat.lt_succ_self _)
  · exact .inr ⟨rfl, Int.lt_succ _⟩

/-- Reading leads to later positions. -/
theorem precedes_after (p : Position) (hcs : cs ≠ []) : p.Precedes (p.after cs) := by
  induction cs generalizing p with
  | nil => exact absurd rfl hcs
  | cons c cs ih =>
    rw [after_cons]
    cases cs with
    | nil => exact precedes_next p c
    | cons d cs => exact (precedes_next p c).trans (ih (p.next c) (List.cons_ne_nil d cs))

/-! ## All offsets -/

/-- A later offset has a later position. -/
theorem exists_precedes {i j : Nat} (hij : i < j) (hj : j ≤ text.length) :
    ∃ p q, ofOffset? text i = some p ∧ ofOffset? text j = some q ∧ p.Precedes q := by
  refine ⟨_, _, ofOffset?_of_le (Nat.le_trans (Nat.le_of_lt hij) hj), ofOffset?_of_le hj, ?_⟩
  have hsplit : text.toList.take j = text.toList.take i ++ (text.toList.drop i).take (j - i) := by
    rw [← List.take_add, Nat.add_sub_cancel' (Nat.le_of_lt hij)]
  rw [hsplit, after_append]
  refine precedes_after _ fun hnil => ?_
  have hlength := congrArg List.length hnil
  rw [List.length_take, List.length_drop, String.length_toList, List.length_nil] at hlength
  omega

/-- Offsets with the same position are the same. -/
theorem ofOffset?_inj {i j : Nat} (hi : i ≤ text.length) (hj : j ≤ text.length)
    (h : ofOffset? text i = ofOffset? text j) : i = j := by
  have hnot {i j : Nat} (hj : j ≤ text.length) (h : ofOffset? text i = ofOffset? text j) :
      ¬ i < j := by
    intro hij
    obtain ⟨p, q, hp, hq, hpq⟩ := exists_precedes hij hj
    obtain rfl := Option.some.inj (hp.symm.trans (h.trans hq))
    exact hpq.irrefl
  exact Nat.le_antisymm (Nat.not_lt.1 (hnot hi h.symm)) (Nat.not_lt.1 (hnot hj h))

/-- A text that is put below another one has the same positions as by itself, further down. -/
theorem ofOffset?_append (above below : String) {k : Nat} (hk : k ≤ below.length) :
    ofOffset? (above ++ "\n" ++ below) ↑(above.length + 1 + k) =
      (ofOffset? below k).map (down (1 + above.toList.count '\n')) := by
  have hle : above.length + 1 + k ≤ (above ++ "\n" ++ below).length := by
    rw [String.length_append, String.length_append]
    exact Nat.add_le_add_left hk _
  have htake : (above ++ "\n" ++ below).toList.take (above.length + 1 + k) =
      above.toList ++ '\n' :: below.toList.take k := by
    rw [String.toList_append, String.toList_append, List.append_assoc, Nat.add_assoc,
      ← String.length_toList, List.take_length_add_append, Nat.add_comm]
    rfl
  have hline : (start.after above.toList).next '\n' =
      start.down (1 + above.toList.count '\n') := by
    rw [start_after, next, if_pos rfl, down, Nat.add_comm]
    rfl
  rw [ofOffset?_of_le hle, ofOffset?_of_le hk, htake, after_append, after_cons, hline, after_down]
  rfl

/-- **Positions are exact and in order.**  The line of an offset is one more than the line feeds in
front of it, and its column the distance from the last of them; an offset beyond the end has no
position, and one before the start is on the first line.  Later offsets have later positions, so
that no two have the same one; and under another text and a line feed the positions are further
down, by one line and the line feeds of that text. -/
theorem position_map_exact (text : String) :
    (∀ offset : Nat, offset ≤ text.length →
      let before := text.toList.take offset
      ofOffset? text offset = some ⟨1 + before.count '\n', offset - lastLineFeed before⟩) ∧
      (∀ offset : Int, ofOffset? text offset = none ↔ text.length < offset) ∧
      (∀ offset : Int, offset < 0 → ofOffset? text offset = some ⟨1, offset + 1⟩) ∧
      (∀ i j : Nat, i < j → j ≤ text.length →
        ∃ p q, ofOffset? text i = some p ∧ ofOffset? text j = some q ∧ p.Precedes q) ∧
      (∀ i j : Nat, i ≤ text.length → j ≤ text.length →
        ofOffset? text i = ofOffset? text j → i = j) ∧
      ∀ (above : String) (k : Nat), k ≤ text.length →
        ofOffset? (above ++ "\n" ++ text) ↑(above.length + 1 + k) =
          (ofOffset? text k).map fun p => ⟨p.line + (1 + above.toList.count '\n'), p.column⟩ := by
  refine ⟨fun offset h => ?_, fun offset => ofOffset?_eq_none_iff, fun offset => ofOffset?_of_neg,
    fun i j => exists_precedes, fun i j => ofOffset?_inj,
    fun above k => ofOffset?_append above text⟩
  have hlength : (text.toList.take offset).length = offset := by
    rw [List.length_take, String.length_toList, Nat.min_eq_left h]
  dsimp only
  rw [ofOffset?_of_le h, start_after, hlength]

/-- A text with an empty line, by itself and below a text that ends with one. -/
theorem position_map_exact_lines :
    let text := "a\n\nb"
    ofOffset? text 2 = some ⟨2, 1⟩ ∧ ofOffset? text (-3) = some ⟨1, -2⟩ ∧
      ofOffset? text 5 = none ∧
      (∃ p q, ofOffset? text 2 = some p ∧ ofOffset? text 4 = some q ∧ p.Precedes q) ∧
      ofOffset? text 2 ≠ ofOffset? text 3 ∧
      ofOffset? ("x\n" ++ "\n" ++ text) 6 =
        (ofOffset? text 3).map fun p => ⟨p.line + 2, p.column⟩ := by
  intro text
  obtain ⟨hexact, hnone, hbefore, horder, hinj, hbelow⟩ := position_map_exact text
  refine ⟨(hexact 2 (by decide)).trans (by decide), hbefore (-3) (by decide),
    (hnone 5).2 (by decide), horder 2 4 (by decide) (by decide), fun heq => ?_,
    hbelow "x\n" 3 (by decide)⟩
  exact absurd (hinj 2 3 (by decide) (by decide) heq) (by decide)

end Juxta.Position
