/-!
# Line ends

## What is here

* `Text.unifyNewlines` — every line end becomes a line feed.
* `Text.lines` — a text cut at its line feeds; `Text.splitLines_induction` — induction over lines.
-/

set_option autoImplicit false
namespace Juxta.Text

/-- Writes every carriage return, with the line feed after it if there is one, as a line feed. -/
def unifyLineEnds : List Char → List Char
  | [] => []
  | '\r' :: '\n' :: rest => '\n' :: unifyLineEnds rest
  | '\r' :: rest => '\n' :: unifyLineEnds rest
  | c :: rest => c :: unifyLineEnds rest

/-- The text with every line end written as a line feed. -/
def unifyNewlines (text : String) : String :=
  String.ofList (unifyLineEnds text.toList)

/-- The characters of each line; a line feed separates two lines. -/
def splitLines : List Char → List (List Char)
  | [] => [[]]
  | '\n' :: rest => [] :: splitLines rest
  | c :: rest =>
    match splitLines rest with
    | [] => [[c]]
    | line :: lines => (c :: line) :: lines

theorem splitLines_ne_nil (cs : List Char) : splitLines cs ≠ [] := by
  rw [splitLines.eq_def]
  split
  · exact List.cons_ne_nil _ _
  · exact List.cons_ne_nil _ _
  · split
    · exact List.cons_ne_nil _ _
    · exact List.cons_ne_nil _ _

theorem splitLines_of_notMem {cs : List Char} (h : '\n' ∉ cs) : splitLines cs = [cs] := by
  induction cs with
  | nil => rfl
  | cons c cs ih =>
    obtain ⟨hc, hcs⟩ := not_or.1 (mt List.mem_cons.2 h)
    rw [splitLines, ih hcs]
    exact fun heq => hc heq.symm

theorem splitLines_append {line rest : List Char} (h : '\n' ∉ line) :
    splitLines (line ++ '\n' :: rest) = line :: splitLines rest := by
  induction line with
  | nil => rfl
  | cons c line ih =>
    obtain ⟨hc, hline⟩ := not_or.1 (mt List.mem_cons.2 h)
    rw [List.cons_append, splitLines, ih hline]
    exact fun heq => hc heq.symm

/-- A text is one line, or a line and a line feed in front of another text. -/
theorem splitLines_induction {motive : List Char → Prop}
    (last : ∀ line, '\n' ∉ line → motive line)
    (more : ∀ line rest, '\n' ∉ line → motive rest → motive (line ++ '\n' :: rest))
    (cs : List Char) : motive cs := by
  induction hn : cs.length using Nat.strongRecOn generalizing cs with
  | ind n ih =>
    by_cases hmem : '\n' ∈ cs
    · obtain ⟨line, rest, rfl, hline⟩ := List.eq_append_cons_of_mem hmem
      have hlt : rest.length < n := by
        rw [List.length_append, List.length_cons] at hn
        omega
      exact more line rest hline (ih rest.length hlt rest rfl)
    · exact last cs hmem

/-- The lines of a text.  There is always at least one. -/
def lines (text : String) : List String :=
  (splitLines text.toList).map String.ofList

theorem lines_ne_nil (text : String) : lines text ≠ [] :=
  mt List.map_eq_nil_iff.1 (splitLines_ne_nil text.toList)

end Juxta.Text
