import Juxta.Node.Printer
import Juxta.Proofs.Decimal.Writing
import Juxta.Proofs.Evaluation.Unplaced
import Juxta.Proofs.Token.Strings

/-!
# Outlines can be read back

An outline prints the text of a leaf as it is, between quotes.  A text may well contain line feeds
and braces and look like lines of an outline; it may contain quotes, too.  Still, an outline
determines its tree, for the trees that come of sources: a quote inside a text stands behind a
backslash, and the quotes that the outline puts around a text do not, unless the text itself ends
in a backslash.  Such a text is the last one, and what follows it on further lines are names and
numbers, which do not start with a space as what follows a closing quote does.

## What is here

* `Entry` — a line of an outline; `Node.entries` — the lines of a tree.
* `unplaced_of_entries` — the lines determine the tree: depth tells where the children of a node
  end.
* `Legible` — what the lines are like in the outlines of sources.
* `Entry.front_inj` — the depth and the kind of a node can be read off its line.
* `opensPlainly` — the first quote behind a text that ends in a backslash.
* `not_longer` — no text can be read beyond its end.
* `entries_of_text` — the text determines the lines; `unplaced_of_outline` — and so the tree.
-/

set_option autoImplicit false
namespace Juxta.Node

open Token (throughFreeQuote)

/-! ## Lines -/

/-- A line of an outline: how deep a node stands, its kind, and what it holds. -/
structure Entry where
  depth : Nat
  kind : Kind
  payload : Option Payload

mutual

/-- The lines of a tree whose root stands at the given depth. -/
def entries (depth : Nat) : Node → List Entry
  | leaf k p _ => [⟨depth, k, some p⟩]
  | branch k cs _ => ⟨depth, k, none⟩ :: entriesOfAll (depth + 1) cs

/-- The lines of some trees at the same depth. -/
def entriesOfAll (depth : Nat) : List Node → List Entry
  | [] => []
  | n :: ns => entries depth n ++ entriesOfAll depth ns

end

/-- The first line of some trees stands at their depth. -/
theorem head?_entriesOfAll (depth : Nat) (n : Node) (ns : List Node) (es : List Entry) :
    ∃ e, (entriesOfAll depth (n :: ns) ++ es).head? = some e ∧ e.depth = depth := by
  cases n with
  | leaf k p s => exact ⟨_, rfl, rfl⟩
  | branch k cs s => exact ⟨_, rfl, rfl⟩

/-- The next line, if there is one, stands at a smaller depth. -/
def Above (depth : Nat) (es : List Entry) : Prop :=
  ∀ e ∈ es.head?, e.depth < depth

theorem above_entriesOfAll {depth : Nat} {es : List Entry} (h : Above depth es) (ns : List Node) :
    Above (depth + 1) (entriesOfAll depth ns ++ es) := by
  intro e he
  cases ns with
  | nil => exact Nat.lt_succ_of_lt (h e he)
  | cons n ns =>
    obtain ⟨e', he', hdepth⟩ := head?_entriesOfAll depth n ns es
    obtain rfl := Option.some.inj (he'.symm.trans he)
    exact hdepth ▸ Nat.lt_succ_self depth

theorem not_above_entriesOfAll {depth : Nat} (n : Node) (ns : List Node) (es : List Entry) :
    ¬ Above depth (entriesOfAll depth (n :: ns) ++ es) := by
  intro h
  obtain ⟨e, he, hdepth⟩ := head?_entriesOfAll depth n ns es
  exact absurd hdepth (Nat.ne_of_lt (h e he))

mutual

/-- **The lines of a tree determine it**, up to places, whatever lines follow that are not deeper
than its root. -/
theorem unplaced_of_entries {depth : Nat} {es es' : List Entry} (hes : Above (depth + 1) es)
    (hes' : Above (depth + 1) es') : ∀ {n n' : Node},
    n.entries depth ++ es = n'.entries depth ++ es' → n.unplaced = n'.unplaced ∧ es = es'
  | leaf k p s, leaf k' p' s', h => by
    obtain ⟨he, hrest⟩ := List.cons.inj h
    cases he
    exact ⟨rfl, hrest⟩
  | branch k cs s, branch k' cs' s', h => by
    obtain ⟨he, hrest⟩ := List.cons.inj h
    cases he
    obtain ⟨hcs, hrest⟩ := unplacedAll_of_entries hes hes' hrest
    rw [unplaced, unplaced, hcs]
    exact ⟨rfl, hrest⟩
  | leaf _ _ _, branch _ _ _, h => nomatch (List.cons.inj h).1
  | branch _ _ _, leaf _ _ _, h => nomatch (List.cons.inj h).1

theorem unplacedAll_of_entries {depth : Nat} {es es' : List Entry} (hes : Above depth es)
    (hes' : Above depth es') : ∀ {ns ns' : List Node},
    entriesOfAll depth ns ++ es = entriesOfAll depth ns' ++ es' →
      unplacedAll ns = unplacedAll ns' ∧ es = es'
  | [], [], h => ⟨rfl, h⟩
  | [], n' :: ns', h => by
    have h : es = entriesOfAll depth (n' :: ns') ++ es' := h
    rw [h] at hes
    exact absurd hes (not_above_entriesOfAll n' ns' es')
  | n :: ns, [], h => by
    have h : entriesOfAll depth (n :: ns) ++ es = es' := h
    rw [← h] at hes'
    exact absurd hes' (not_above_entriesOfAll n ns es)
  | n :: ns, n' :: ns', h => by
    rw [entriesOfAll, entriesOfAll, List.append_assoc, List.append_assoc] at h
    obtain ⟨hn, h⟩ :=
      unplaced_of_entries (above_entriesOfAll hes ns) (above_entriesOfAll hes' ns') h
    obtain ⟨hns, h⟩ := unplacedAll_of_entries hes hes' h
    rw [unplacedAll, unplacedAll, hn, hns]
    exact ⟨rfl, h⟩

end

/-! ## The text of lines -/

namespace Entry

/-- What stands before the text of a leaf on its line. -/
def opening : List Char := [' ', '\x7b', ' ', 'V', 'a', 'l', 'u', 'e', ':', ' ']

/-- What follows the text of a leaf on its line. -/
def closing : List Char := ['"', ' ', '\x7d', '\n']

/-- What follows the kind of a node on its line. -/
def ending : Option Payload → List Char
  | none => ['\n']
  | some p => opening ++ '"' :: (p.text.toList ++ closing)

/-- The line up to the kind of the node. -/
def front (e : Entry) : List Char :=
  List.replicate (2 * e.depth) ' ' ++ '-' :: ' ' :: e.kind.name.toList

/-- A line with the line feed at its end. -/
def text (e : Entry) : List Char :=
  e.front ++ ending e.payload

theorem text_leaf (depth : Nat) (k : Kind) (p : Payload) :
    (indent depth ++ "- " ++ k.name ++ " \x7b Value: \"" ++ p.text ++ "\" \x7d").toList ++ ['\n'] =
      text ⟨depth, k, some p⟩ := by
  simp [indent, text, front, ending, opening, closing]

theorem text_branch (depth : Nat) (k : Kind) :
    (indent depth ++ "- " ++ k.name).toList ++ ['\n'] = text ⟨depth, k, none⟩ := by
  simp [indent, text, front, ending]

end Entry

mutual

theorem toList_outlineLines (depth : Nat) : ∀ n : Node,
    (n.outlineLines depth).flatMap (fun line => line.toList ++ ['\n']) =
      (n.entries depth).flatMap Entry.text
  | leaf k p s => by
    rw [outlineLines, entries, List.flatMap_singleton, List.flatMap_singleton, Entry.text_leaf]
  | branch k cs s => by
    have hcs := toList_outlineLinesOfAll (depth + 1) cs
    rw [Nat.cast_succ] at hcs
    rw [outlineLines, entries, List.flatMap_cons, List.flatMap_cons, hcs, Entry.text_branch]

theorem toList_outlineLinesOfAll (depth : Nat) : ∀ ns : List Node,
    (outlineLinesOfAll depth ns).flatMap (fun line => line.toList ++ ['\n']) =
      (entriesOfAll depth ns).flatMap Entry.text
  | [] => rfl
  | n :: ns => by
    rw [outlineLinesOfAll, entriesOfAll, List.flatMap_append, List.flatMap_append,
      toList_outlineLines depth n, toList_outlineLinesOfAll depth ns]

end

/-- The outline of a tree has the text of its lines. -/
theorem toList_outline (depth : Nat) (n : Node) :
    (n.outline depth).toList = (n.entries depth).flatMap Entry.text := by
  rw [outline, String.toList_join, List.flatMap_map, ← toList_outlineLines]
  simp [String.toList_append]

/-! ## Outlines of sources -/

/-- A text that is not empty and has no spaces or quotes. -/
def Solid (cs : List Char) : Prop :=
  cs ≠ [] ∧ ∀ c ∈ cs, c ≠ ' ' ∧ c ≠ '"'

theorem Solid.of_all {inText : Char → Bool} {cs : List Char} (hne : cs ≠ [])
    (hcs : ∀ c ∈ cs, inText c = true) (hspace : inText ' ' = false) (hquote : inText '"' = false) :
    Solid cs := by
  refine ⟨hne, fun c hc => ⟨?_, ?_⟩⟩
  · rintro rfl
    exact absurd (hcs _ hc) (by simp [hspace])
  · rintro rfl
    exact absurd (hcs _ hc) (by simp [hquote])

/-- The payloads of each kind of leaf: no quote is free in a string, and names and operators are
solid. -/
inductive Payload.Fits : Kind → Payload → Prop
  | string {s : String} (h : throughFreeQuote s.toList = none) : Fits .string (.str s)
  | identifier {s : String} (h : Solid s.toList) : Fits .identifier (.str s)
  | operator {s : String} (h : Solid s.toList) : Fits .operator (.str s)
  | integer (n : Nat) : Fits .integer (.int n)
  | float (x : Float) : Fits .float (.float x)

/-- A quote behind the text closes it. -/
def Payload.Closes (p : Payload) : Prop :=
  throughFreeQuote (p.text.toList ++ ['"']) ≠ none

/-- A leaf on a line, as its kind and its payload. -/
def Entry.leaf? (e : Entry) : Option (Kind × Payload) :=
  e.payload.map (e.kind, ·)

/-- The leaves on some lines. -/
def leaves (es : List Entry) : List (Kind × Payload) :=
  es.filterMap Entry.leaf?

/-- What the lines of an outline of a source are like.  Of the strings only the last may end in a
backslash that pairs with the quote behind it. -/
structure Legible (es : List Entry) : Prop where
  known : ∀ e ∈ es, e.kind ∈ Kind.known
  fits : ∀ x ∈ leaves es, x.2.Fits x.1
  strings : (leaves es).Pairwise fun x y => x.1 = .string → y.1 = .string → x.2.Closes

namespace Payload

variable {k : Kind} {p p' : Payload}

theorem solid_repr (n : Nat) : Solid n.repr.toList :=
  .of_all (Decimal.toList_repr_ne_nil n) (fun _ hc => Decimal.isDigit_of_mem_repr hc) rfl rfl

/-- Except for strings, the texts of leaves are solid. -/
theorem Fits.solid (h : Fits k p) (hk : k ≠ .string) : Solid p.text.toList := by
  cases h with
  | string h => exact absurd rfl hk
  | identifier h | operator h => exact h
  | integer n => exact solid_repr n
  | float x => exact formatFloat_solid x

theorem Fits.throughFreeQuote (h : Fits .string p) : throughFreeQuote p.text.toList = none := by
  cases h with
  | string h => exact h

/-- Leaves of the same kind and the same text hold the same. -/
theorem Fits.eq_of_text (h : Fits k p) (h' : Fits k p') (htext : p.text = p'.text) : p = p' := by
  cases h with
  | string h | identifier h | operator h =>
    cases h'
    exact congrArg Payload.str htext
  | integer n =>
    cases h' with
    | integer n' =>
      have hread := (Decimal.readInteger?_repr n).symm.trans
        ((congrArg Decimal.readInteger? htext).trans (Decimal.readInteger?_repr n'))
      exact congrArg Payload.int (Option.some.inj hread)
  | float x =>
    cases h' with
    | float x' => exact congrArg Payload.float (formatFloat_injective htext)

end Payload

/-! ## Reading lines back -/

variable {cs u u' v v' : List Char} {e e' : Entry} {es es' : List Entry} {p p' : Payload}

/-- Two texts are cut where a run of characters ends in both. -/
theorem append_inj_of_all {inRun : Char → Bool} (hu : ∀ c ∈ u, inRun c = true)
    (hu' : ∀ c ∈ u', inRun c = true) (hv : ∀ c ∈ v.head?, inRun c = false)
    (hv' : ∀ c ∈ v'.head?, inRun c = false) (h : u ++ v = u' ++ v') : u = u' ∧ v = v' := by
  have hrun : (u ++ v).takeWhile inRun = u := Token.takeWhile_append_eq_left.2 ⟨hu, hv⟩
  have hrun' : (u' ++ v').takeWhile inRun = u' := Token.takeWhile_append_eq_left.2 ⟨hu', hv'⟩
  rw [h, hrun'] at hrun
  exact ⟨hrun.symm, List.append_cancel_left (hrun ▸ h)⟩

/-- Two texts are cut at the first quote of both. -/
theorem append_inj_of_notMem (hu : '"' ∉ u) (hu' : '"' ∉ u')
    (h : u ++ '"' :: v = u' ++ '"' :: v') : u = u' ∧ v = v' := by
  have hall {w : List Char} (hw : '"' ∉ w) : ∀ c ∈ w, decide (c ≠ '"') = true := by
    intro c hc
    rw [decide_eq_true_eq]
    rintro rfl
    exact hw hc
  obtain ⟨hfront, hback⟩ := append_inj_of_all (hall hu) (hall hu') (by simp) (by simp) h
  exact ⟨hfront, (List.cons.inj hback).2⟩

namespace Kind

theorem isAlpha_of_known {k : Kind} (h : k ∈ known) : ∀ c ∈ k.name.toList, c.isAlpha = true := by
  have hall : ∀ k ∈ known, k.name.toList.all Char.isAlpha = true := by decide
  exact List.all_eq_true.1 (hall k h)

theorem ofName_name {k : Kind} (h : k ∈ known) : ofName k.name = k := by
  revert k
  decide

end Kind

namespace Entry

theorem quote_notMem_front (h : e.kind ∈ Kind.known) : '"' ∉ e.front := by
  intro hmem
  rw [front, List.mem_append, List.mem_cons, List.mem_cons] at hmem
  rcases hmem with hmem | hmem | hmem | hmem
  · exact absurd (List.eq_of_mem_replicate hmem) (by decide)
  · exact absurd hmem (by decide)
  · exact absurd hmem (by decide)
  · exact absurd (Kind.isAlpha_of_known h _ hmem) (by decide)

theorem text_ne_nil (e : Entry) : e.text ≠ [] := by
  simp [text, front]

/-- What follows the kind on a line is not a letter. -/
theorem isAlpha_head_ending (payload : Option Payload) (rest : List Char) :
    ∀ c ∈ (ending payload ++ rest).head?, c.isAlpha = false := by
  intro c hc
  cases payload with
  | none =>
    obtain rfl := Option.some.inj hc
    decide
  | some p =>
    obtain rfl := Option.some.inj hc
    decide

/-- The depth and the kind of a node can be read off its line. -/
theorem front_inj {rest rest' : List Char} (hk : e.kind ∈ Kind.known)
    (hk' : e'.kind ∈ Kind.known) (h : e.text ++ rest = e'.text ++ rest') :
    e.depth = e'.depth ∧ e.kind = e'.kind ∧
      ending e.payload ++ rest = ending e'.payload ++ rest' := by
  rw [text, text, front, front] at h
  simp only [List.append_assoc, List.cons_append] at h
  have hspaces (n : Nat) : ∀ c ∈ List.replicate n ' ', decide (c = ' ') = true := by simp
  obtain ⟨hdepth, h⟩ := append_inj_of_all (hspaces _) (hspaces _) (by simp) (by simp) h
  have hdepth := congrArg List.length hdepth
  rw [List.length_replicate, List.length_replicate] at hdepth
  have h := (List.cons.inj (List.cons.inj h).2).2
  obtain ⟨hname, h⟩ := append_inj_of_all (Kind.isAlpha_of_known hk) (Kind.isAlpha_of_known hk')
    (isAlpha_head_ending _ _) (isAlpha_head_ending _ _) h
  refine ⟨by omega, ?_, h⟩
  rw [← Kind.ofName_name hk, String.toList_inj.1 hname, Kind.ofName_name hk']

end Entry

/-! ## Strings on lines -/

namespace Legible

variable {depth : Nat} {k : Kind}

theorem of_cons (h : Legible (e :: es)) : Legible es := by
  have hsublist : (leaves es).Sublist (leaves (e :: es)) :=
    (List.sublist_cons_self e es).filterMap _
  exact ⟨fun e' he' => h.known e' (List.mem_cons_of_mem e he'),
    fun x hx => h.fits x (hsublist.subset hx), h.strings.sublist hsublist⟩

theorem head_fits (h : Legible (⟨depth, k, some p⟩ :: es)) : p.Fits k :=
  h.fits (k, p) List.mem_cons_self

/-- There are no strings behind one that is not closed. -/
theorem not_string_of_not_closes (h : Legible (⟨depth, .string, some p⟩ :: es)) (hp : ¬ p.Closes) :
    ∀ x ∈ leaves es, x.1 ≠ .string := by
  have hstrings : ((.string, p) :: leaves es).Pairwise _ := h.strings
  exact fun x hx hstring => hp ((List.pairwise_cons.1 hstrings).1 x hx rfl hstring)

end Legible

/-- The first quote of a text stands behind a space, and not before one. -/
def OpensPlainly (cs : List Char) : Prop :=
  ∀ u v, cs = u ++ '"' :: v → '"' ∉ u → (∃ front, u = front ++ [' ']) ∧ v.head? ≠ some ' '

/-- Where there are no strings, the first quote opens the text of a leaf. -/
theorem opensPlainly (h : Legible es) (hstring : ∀ x ∈ leaves es, x.1 ≠ .string)
    (hcs : '"' ∉ cs) : OpensPlainly (cs ++ es.flatMap Entry.text) := by
  induction es generalizing cs with
  | nil =>
    intro u v huv _
    rw [List.flatMap_nil, List.append_nil] at huv
    exact absurd (by rw [huv]; simp) hcs
  | cons e es ih =>
    obtain ⟨depth, k, payload⟩ := e
    have hfront := Entry.quote_notMem_front (h.known _ List.mem_cons_self)
    have hcs : '"' ∉ cs ++ Entry.front ⟨depth, k, payload⟩ := by
      rw [List.mem_append]
      exact not_or.2 ⟨hcs, hfront⟩
    rw [List.flatMap_cons, Entry.text, List.append_assoc, ← List.append_assoc]
    cases payload with
    | none =>
      rw [← List.append_assoc]
      refine ih h.of_cons hstring ?_
      have hending : '"' ∉ Entry.ending none := by decide
      rw [List.mem_append]
      exact not_or.2 ⟨hcs, hending⟩
    | some p =>
      intro u v huv hu
      obtain ⟨hne, hsolid⟩ := h.head_fits.solid (hstring (k, p) List.mem_cons_self)
      obtain ⟨c, text, htext⟩ := List.exists_cons_of_ne_nil hne
      have hopening : '"' ∉ cs ++ Entry.front ⟨depth, k, some p⟩ ++ Entry.opening := by
        rw [List.mem_append]
        exact not_or.2 ⟨hcs, by decide⟩
      have hending (after : List Char) : Entry.ending (some p) ++ after =
          Entry.opening ++ '"' :: c :: (text ++ (Entry.closing ++ after)) := by
        rw [Entry.ending, htext, List.append_assoc, List.cons_append, List.append_assoc,
          List.cons_append]
      rw [hending, ← List.append_assoc] at huv
      obtain ⟨rfl, rfl⟩ := append_inj_of_notMem hopening hu huv
      refine ⟨⟨_, (List.append_assoc _ Entry.opening.dropLast _).symm⟩, ?_⟩
      have hc := (hsolid c (htext ▸ List.mem_cons_self)).1
      simpa using hc

/-- A string in which a quote stands does not go on up to a quote that a space follows, where the
text behind the first of them opens plainly. -/
theorem not_continues {body more rest : List Char}
    (hmore : throughFreeQuote (body ++ '"' :: more) = none)
    (hplain : OpensPlainly (more ++ '"' :: ' ' :: rest)) : False := by
  by_cases hquote : '"' ∈ more
  · -- the next quote inside stands behind a backslash, but also behind a space
    obtain ⟨u, v, rfl, hu⟩ := List.eq_append_cons_of_mem hquote
    obtain ⟨⟨front, rfl⟩, -⟩ := hplain u _ (List.append_assoc _ _ _) hu
    obtain ⟨front', hfront'⟩ : ∃ front', body ++ '"' :: (front ++ [' ']) = front' ++ ['\\'] :=
      Token.backslash_of_throughFreeQuote (by simpa using hmore)
    rw [← List.cons_append, ← List.append_assoc] at hfront'
    exact absurd (List.append_inj_right' hfront' rfl) (by decide)
  · -- the next quote closes the string, and a space follows it
    exact (hplain more _ rfl hquote).2 rfl

/-- **No text is read beyond its end**: a string that starts as another one on an outline does is
not longer. -/
theorem not_longer {body body' rest : List Char} (hbody' : throughFreeQuote body' = none)
    (h : Legible es)
    (hopen : throughFreeQuote (body ++ ['"']) = none → ∀ x ∈ leaves es, x.1 ≠ .string)
    (htext : body ++ (Entry.closing ++ es.flatMap Entry.text) = body' ++ (Entry.closing ++ rest)) :
    body'.length ≤ body.length := by
  rcases List.append_eq_append_iff.1 htext with ⟨more, rfl, hmore⟩ | ⟨more, rfl, -⟩
  · cases more with
    | nil => rw [List.append_nil]
    | cons c more =>
      obtain ⟨rfl, -⟩ := List.cons.inj hmore
      have hrest : [' ', '\x7d', '\n'] ++ es.flatMap Entry.text =
          more ++ '"' :: ' ' :: (['\x7d', '\n'] ++ rest) := (List.cons.inj hmore).2
      -- the closing quote stands inside the longer string, and so it is not free
      have hstring := hopen (Token.throughFreeQuote_eq_none_of_append (by simpa using hbody'))
      have hplain := opensPlainly h hstring (show '"' ∉ [' ', '\x7d', '\n'] by decide)
      rw [hrest] at hplain
      exact (not_continues hbody' hplain).elim
  · rw [List.length_append]
    exact Nat.le_add_right _ _

/-- The text of a leaf ends where the line says. -/
theorem payload_text_eq {depth : Nat} {k : Kind} (h : Legible (⟨depth, k, some p⟩ :: es))
    (h' : Legible (⟨depth, k, some p'⟩ :: es'))
    (htext : p.text.toList ++ (Entry.closing ++ es.flatMap Entry.text) =
      p'.text.toList ++ (Entry.closing ++ es'.flatMap Entry.text)) :
    p.text.toList = p'.text.toList ∧ es.flatMap Entry.text = es'.flatMap Entry.text := by
  have hcut : p.text.toList = p'.text.toList ∧
      Entry.closing ++ es.flatMap Entry.text = Entry.closing ++ es'.flatMap Entry.text := by
    by_cases hk : k = .string
    · subst hk
      have hle := not_longer h'.head_fits.throughFreeQuote h.of_cons
        (fun hopen => h.not_string_of_not_closes (not_not.2 hopen)) htext
      have hge := not_longer h.head_fits.throughFreeQuote h'.of_cons
        (fun hopen => h'.not_string_of_not_closes (not_not.2 hopen)) htext.symm
      exact List.append_inj htext (Nat.le_antisymm hge hle)
    · have hnot {q : Payload} (hq : q.Fits k) : '"' ∉ q.text.toList := fun hmem =>
        ((hq.solid hk).2 _ hmem).2 rfl
      obtain ⟨hp, hrest⟩ := append_inj_of_notMem (hnot h.head_fits) (hnot h'.head_fits) htext
      exact ⟨hp, congrArg ('"' :: ·) hrest⟩
  exact ⟨hcut.1, List.append_cancel_left hcut.2⟩

/-- **The text of an outline determines its lines.** -/
theorem entries_of_text (h : Legible es) (h' : Legible es')
    (htext : es.flatMap Entry.text = es'.flatMap Entry.text) : es = es' := by
  induction es generalizing es' with
  | nil =>
    cases es' with
    | nil => rfl
    | cons e' es' =>
      rw [List.flatMap_nil, List.flatMap_cons, eq_comm, List.append_eq_nil_iff] at htext
      exact absurd htext.1 (Entry.text_ne_nil e')
  | cons e es ih =>
    cases es' with
    | nil =>
      rw [List.flatMap_nil, List.flatMap_cons, List.append_eq_nil_iff] at htext
      exact absurd htext.1 (Entry.text_ne_nil e)
    | cons e' es' =>
      obtain ⟨depth, k, payload⟩ := e
      obtain ⟨depth', k', payload'⟩ := e'
      rw [List.flatMap_cons, List.flatMap_cons] at htext
      obtain ⟨hdepth, hk, hending⟩ :=
        Entry.front_inj (h.known _ List.mem_cons_self) (h'.known _ List.mem_cons_self) htext
      obtain rfl : depth = depth' := hdepth
      obtain rfl : k = k' := hk
      cases payload with
      | none =>
        cases payload' with
        | none => rw [ih h.of_cons h'.of_cons (List.cons.inj hending).2]
        | some p' => cases hending
      | some p =>
        cases payload' with
        | none => cases hending
        | some p' =>
          simp only [Entry.ending, List.append_assoc, List.cons_append] at hending
          have hrest := (List.cons.inj (List.append_cancel_left hending)).2
          obtain ⟨hp, hrest⟩ := payload_text_eq h h' hrest
          rw [h.head_fits.eq_of_text h'.head_fits (String.toList_inj.1 hp),
            ih h.of_cons h'.of_cons hrest]

/-- **The outline of a tree determines it**, up to places. -/
theorem unplaced_of_outline {n n' : Node} {depth : Nat} (h : Legible (n.entries depth))
    (h' : Legible (n'.entries depth)) (houtline : n.outline depth = n'.outline depth) :
    n.unplaced = n'.unplaced := by
  have htext := congrArg String.toList houtline
  rw [toList_outline, toList_outline] at htext
  have hentries := congrArg (· ++ []) (entries_of_text h h' htext)
  exact (unplaced_of_entries (by simp [Above]) (by simp [Above]) hentries).1

end Juxta.Node
