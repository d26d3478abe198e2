import Juxta.Proofs.Node.Outline
import Juxta.Proofs.Parser.Words

/-!
# The outlines of sources

Trees that come of sources and have the same outline are equal: no text of a source can imitate
lines of an outline.

The leaves of a tree, in order, are what the tokens say that it was read from, and tokens are cut
from a source.  So the texts of names and operators are solid, no quote is free in a string, and
only the last string of all can end in a backslash that pairs with the quote behind it.

## What is here

* `leaves_entries` — the leaves on the lines of a tree are those that are written down.
* `HasShape.kind_known` — the grammar makes no kinds but the known ones.
* `fits_of_terminal` — what a token says can be told on a line.
* `Makes.legible` — the lines of the tree of a source.
* `outline_injective` — the main result.
-/

set_option autoImplicit false
namespace Juxta

/-! ## Leaves in order -/

/-- A leaf as its kind and its payload. -/
def Terminal.leaf? : Terminal → Option (Node.Kind × Node.Payload)
  | .mark _ => none
  | .leaf k p => some (k, p)

theorem Terminal.eq_of_leaf? {x : Terminal} {y : Node.Kind × Node.Payload}
    (h : x.leaf? = some y) : x = .leaf y.1 y.2 := by
  cases x with
  | mark text => cases h
  | leaf k p =>
    cases h
    rfl

namespace Node

theorem Kind.leaf?_marks (k : Kind) :
    k.opening.filterMap Terminal.leaf? = [] ∧ k.joint.filterMap Terminal.leaf? = [] ∧
      k.closing.filterMap Terminal.leaf? = [] := by
  cases k <;> exact ⟨rfl, rfl, rfl⟩

theorem Kind.mem_known {k : Kind} (h : ∀ name, k ≠ .other name) : k ∈ known := by
  cases k with
  | other name => exact absurd rfl (h name)
  | _ => decide

theorem leaves_append (es es' : List Entry) : leaves (es ++ es') = leaves es ++ leaves es' :=
  List.filterMap_append

mutual

/-- The leaves on the lines of a tree are those that are written down. -/
theorem leaves_entries (depth : Nat) : ∀ n : Node,
    leaves (n.entries depth) = n.yield.filterMap Terminal.leaf?
  | leaf k p s => rfl
  | branch k cs s => by
    obtain ⟨hopening, hjoint, hclosing⟩ := k.leaf?_marks
    rw [yield, List.filterMap_append, List.filterMap_append, hopening, hclosing, List.nil_append,
      List.append_nil, ← leaves_entriesOfAll (depth + 1) hjoint cs]
    rfl

theorem leaves_entriesOfAll (depth : Nat) {joint : List Terminal}
    (hjoint : joint.filterMap Terminal.leaf? = []) : ∀ ns : List Node,
    leaves (entriesOfAll depth ns) = (yieldAll joint ns).filterMap Terminal.leaf?
  | [] => rfl
  | [n] => by
    rw [entriesOfAll, entriesOfAll, List.append_nil, yieldAll, leaves_entries depth n]
  | n :: m :: ns => by
    rw [entriesOfAll, leaves_append, leaves_entries depth n,
      leaves_entriesOfAll depth hjoint (m :: ns), yieldAll, List.filterMap_append,
      List.filterMap_append, hjoint, List.append_nil]

end

mutual

theorem map_kind_entries (depth : Nat) : ∀ n : Node,
    (n.entries depth).map Entry.kind = n.subtrees.map kind
  | leaf k p s => rfl
  | branch k cs s => by
    rw [entries, subtrees, List.map_cons, List.map_cons, map_kind_entriesOfAll (depth + 1) cs]
    rfl

theorem map_kind_entriesOfAll (depth : Nat) : ∀ ns : List Node,
    (entriesOfAll depth ns).map Entry.kind = (subtreesOfAll ns).map kind
  | [] => rfl
  | n :: ns => by
    rw [entriesOfAll, subtreesOfAll, List.map_append, List.map_append, map_kind_entries depth n,
      map_kind_entriesOfAll depth ns]

end

end Node

namespace Parser

open Node.Kind (mem_known)

variable {forms : List ValueForm} {mode : Mode} {source : String} {ts : List Token} {node : Node}
  {t : Token} {k : Node.Kind} {p : Node.Payload}

/-! ## Kinds -/

/-- The grammar makes no kinds of nodes but the known ones. -/
theorem HasShape.kind_known {c : Category} {n : Node} (h : HasShape c n) :
    ∀ m ∈ n.subtrees, m.kind ∈ Node.Kind.known := by
  induction h with
  | identifier | float | string | integer => exact forall_mem_subtrees_leaf (mem_known nofun)
  | group _ ih | noProperty _ ih | noOperand _ ih | noCall _ ih | plain _ ih => exact ih
  | parens _ ih | quoted _ ih | unquote _ ih =>
    refine forall_mem_subtrees_branch (mem_known nofun) ?_
    exact List.forall_mem_singleton.2 ih
  | block _ ih => exact forall_mem_subtrees_branch (mem_known nofun) ih
  | property _ _ ih =>
    refine forall_mem_subtrees_branch (mem_known nofun) ?_
    refine List.forall_mem_cons.2 ⟨ih, List.forall_mem_singleton.2 ?_⟩
    exact forall_mem_subtrees_leaf (mem_known nofun)
  | operand _ _ _ ihl ihr | nested _ _ _ ihl ihr =>
    refine forall_mem_subtrees_branch (mem_known nofun) ?_
    refine List.forall_mem_cons.2 ⟨ihl, List.forall_mem_cons.2 ⟨?_, ?_⟩⟩
    · exact forall_mem_subtrees_leaf (mem_known nofun)
    · exact List.forall_mem_singleton.2 ihr
  | call _ _ _ ih ihargs =>
    refine forall_mem_subtrees_branch (mem_known nofun) ?_
    exact List.forall_mem_cons.2 ⟨ih, ihargs⟩

/-! ## What tokens say -/

theorem solid_of_ident (h : t.Lexical) (hk : t.kind = .ident) : Node.Solid t.text.toList := by
  obtain ⟨c, l, htext, hc⟩ := h.exists_cons
  have hl := h.text_of_ident hk (String.toList_inj.1 (by rw [htext, String.toList_ofList]))
  have hc : Token.isIdentChar c = true := by
    rw [hk] at hc
    rw [Token.isIdentChar, show Token.isIdentStart c = true from hc, Bool.true_or]
  rw [htext]
  exact .of_all (List.cons_ne_nil c l) (List.forall_mem_cons.2 ⟨hc, hl⟩) rfl rfl

theorem solid_of_operator (h : t.Lexical) (hk : t.kind = .leftOperator ∨ t.kind = .rightOperator) :
    Node.Solid t.text.toList := by
  rcases hk with hk | hk
  · obtain ⟨hne, hall⟩ := h.text_of_leftOperator hk
    exact .of_all hne hall rfl rfl
  · rcases h.text_of_rightOperator hk with htext | htext <;> rw [htext] <;> simp [Node.Solid]

/-- The text between the quotes of a string. -/
theorem toList_stringBody {body : List Char} (h : t.text.toList = '"' :: (body ++ ['"'])) :
    (stringBody t).toList = body := by
  rw [stringBody, String.toList_ofList, h, List.tail_cons, List.dropLast_concat]

/-- What a token of a source says fits its kind. -/
theorem fits_of_terminal (ht : t.Lexical) (h : t.terminal = .leaf k p) : p.Fits k := by
  rw [Token.terminal] at h
  cases hk : t.kind <;> rw [hk] at h <;> simp only [Terminal.leaf.injEq, reduceCtorEq] at h
  all_goals obtain ⟨rfl, rfl⟩ := h
  case ident => exact .identifier (solid_of_ident ht hk)
  case leftOperator => exact .operator (solid_of_operator ht (.inl hk))
  case rightOperator => exact .operator (solid_of_operator ht (.inr hk))
  case float => exact .float _
  case string =>
    obtain ⟨body, htext, hbody⟩ := ht.text_of_string hk
    exact .string (by rwa [toList_stringBody htext])
  case integer =>
    obtain ⟨c, l, htext, hc⟩ := ht.exists_cons
    rw [hk] at hc
    obtain ⟨n, hn⟩ := Int.eq_ofNat_of_zero_le (Decimal.readInteger?_nonneg htext hc)
    rw [integerOf, hn]
    exact .integer n

/-- A string that ends freely is closed by a quote behind its text. -/
theorem closes_of_endsFreely (ht : t.Lexical) (hk : t.kind = .string) (hfree : t.EndsFreely) :
    (Node.Payload.str (stringBody t)).Closes := by
  obtain ⟨body, htext, -⟩ := ht.text_of_string hk
  rw [Token.EndsFreely, htext, List.tail_cons] at hfree
  rw [Node.Payload.Closes, Node.Payload.text, toList_stringBody htext, hfree]
  exact Option.some_ne_none _

theorem kind_of_string (h : t.terminal = .leaf .string p) :
    t.kind = .string ∧ p = .str (stringBody t) := by
  rw [Token.terminal] at h
  cases hk : t.kind <;> rw [hk] at h <;> cases h
  exact ⟨rfl, rfl⟩

/-! ## Sources -/

/-- The strings of a source, but for the last, end freely. -/
theorem strings_of_tokenize (h : Token.tokenize source = .ok ts) :
    ts.Pairwise fun t u => t.kind = .string → u.kind = .string → t.EndsFreely := by
  obtain ⟨pieces, hcuts, rfl⟩ := Token.cuts_of_tokenize h
  exact hcuts.strings.filter _

/-- The trees that are read are written as some of the tokens. -/
theorem Reads.exists_yield {phrase : Phrase} {ns : List Node} {rest : List Token}
    (h : Reads forms phrase ts ns rest) (hbase : phrase.base = []) (hlex : ∀ t ∈ ts, t.Lexical) :
    ∃ us : List Token, us.Sublist ts ∧ Node.yieldAll [] ns = us.map Token.terminal := by
  obtain ⟨pre, rfl, hcovers⟩ := h.covers hlex
  refine ⟨_, ?_, (hcovers [] (hbase ▸ .nil)).yield_eq⟩
  exact List.filter_sublist.trans (List.sublist_append_left pre rest)

theorem Mode.Makes.exists_yield (h : mode.Makes forms ts node) (hlex : ∀ t ∈ ts, t.Lexical) :
    ∃ us : List Token, us.Sublist ts ∧ node.yield = us.map Token.terminal := by
  cases h with
  | program h | expressions h =>
    obtain ⟨us, hus, hyield⟩ := h.exists_yield rfl hlex
    exact ⟨us, hus, (List.append_nil _).trans hyield⟩
  | expression h => exact h.exists_yield rfl hlex

theorem Mode.Makes.kind_known (h : mode.Makes forms ts node) (hlex : ∀ t ∈ ts, t.Lexical) :
    ∀ m ∈ node.subtrees, m.kind ∈ Node.Kind.known := by
  cases h with
  | program h | expressions h =>
    refine forall_mem_subtrees_branch (mem_known nofun) fun n hn => ?_
    exact (h.hasShape hlex trivial n hn).kind_known
  | expression h => exact (h.hasShape hlex trivial node List.mem_cons_self).kind_known

/-- **The lines of the tree of a source are legible.** -/
theorem Mode.Makes.legible (h : mode.Makes forms ts node)
    (htokens : Token.tokenize source = .ok ts) (depth : Nat) :
    Node.Legible (node.entries depth) := by
  have hlex := Token.lexical_of_tokenize htokens
  obtain ⟨us, hus, hyield⟩ := h.exists_yield hlex
  have hlex' : ∀ t ∈ us, t.Lexical := fun t ht => hlex t (hus.subset ht)
  have hleaves : Node.leaves (node.entries depth) =
      us.filterMap fun t => t.terminal.leaf? := by
    rw [Node.leaves_entries, hyield, List.filterMap_map]
    rfl
  refine ⟨fun e he => ?_, fun x hx => ?_, ?_⟩
  · have hmem := List.mem_map_of_mem (f := Node.Entry.kind) he
    rw [Node.map_kind_entries] at hmem
    obtain ⟨m, hm, hkind⟩ := List.mem_map.1 hmem
    rw [← hkind]
    exact h.kind_known hlex m hm
  · rw [hleaves] at hx
    obtain ⟨t, ht, hx⟩ := List.mem_filterMap.1 hx
    exact fits_of_terminal (hlex' t ht) (Terminal.eq_of_leaf? hx)
  · rw [hleaves, List.pairwise_filterMap]
    refine ((strings_of_tokenize htokens).sublist hus).imp_of_mem ?_
    intro t u ht hu hfree x hx y hy hstring hstring'
    have hx := Terminal.eq_of_leaf? hx
    have hy := Terminal.eq_of_leaf? hy
    rw [hstring] at hx
    rw [hstring'] at hy
    obtain ⟨hkind, hp⟩ := kind_of_string hx
    rw [hp]
    exact closes_of_endsFreely (hlex' t ht) hkind (hfree hkind (kind_of_string hy).1)

/-- **The outline of a source determines its tree.**  If the trees of two sources, each parsed in
any mode, have the same outline, they are equal. -/
theorem outline_injective {settings settings' : Settings} {mode mode' : Mode}
    {source source' : String} {node node' : Node} (depth : Nat)
    (h : (parseSource settings mode source).tree = .ok node)
    (h' : (parseSource settings' mode' source').tree = .ok node')
    (houtline : node.outline depth = node'.outline depth) : node.equal node' = true := by
  have hparses := parsesTo_parseSource settings mode source
  have hparses' := parsesTo_parseSource settings' mode' source'
  rw [h] at hparses
  rw [h'] at hparses'
  cases hparses with
  | tree htokens hmakes =>
    cases hparses' with
    | tree htokens' hmakes' =>
      refine Node.equal_of_unplaced ?_ (hmakes.selfEqual (Token.lexical_of_tokenize htokens))
      exact Node.unplaced_of_outline (hmakes.legible htokens depth) (hmakes'.legible htokens' depth)
        houtline

/-- A string that looks like the end of its line and another line, in two layouts, and a number in
two notations. -/
theorem outline_injective_imitation :
    ∃ node node',
      parse .program "f \"x\\\" \x7d\n  - Integer \x7b Value: \\\"1\", 2.50" = .ok node ∧
      parse .program "f \"x\\\" \x7d\n  - Integer \x7b Value: \\\"1\"  2.5 # f" = .ok node' ∧
      node.outline 0 = node'.outline 0 ∧ node.equal node' = true := by
  have hequal {a b : String} (ha : (parse .program a).isOk = true)
      (hb : (parse .program b).isOk = true)
      (houtline : (parse .program a).toOption.map (Node.outline 0) =
        (parse .program b).toOption.map (Node.outline 0)) :
      ∃ node node', parse .program a = .ok node ∧ parse .program b = .ok node' ∧
        node.outline 0 = node'.outline 0 ∧ node.equal node' = true := by
    obtain ⟨node, hnode⟩ := exists_ok_of_isOk ha
    obtain ⟨node', hnode'⟩ := exists_ok_of_isOk hb
    rw [hnode, hnode'] at houtline
    have houtline := Option.some.inj houtline
    exact ⟨node, node', hnode, hnode', houtline, outline_injective 0 hnode hnode' houtline⟩
  exact hequal (by decide +kernel) (by decide +kernel) (by decide +kernel)

end Parser
end Juxta
