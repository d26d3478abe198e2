import Juxta.Proofs.Parser.Modes
import Juxta.Proofs.Parser.Yield
import Juxta.Proofs.Token.Layout

/-!
# Sources with the same words

A tree depends on what the tokens of a source say, and not on where they stand.  Two sources whose
tokens say the same have equal trees in every mode; or neither has one, and the same thing is
expected where the same thing is found.

Equal trees need some care: a tree with a payload that is not a number does not equal itself.  No
tree of a source has such a payload, since what is written with digits is a number.

## What is here

* `Token.bare` — the token that says a word and stands nowhere in particular.
* `Mode.Makes.relabel`, `Mode.Refuses.relabel` — the modes do not look at places.
* `Node.equal_of_unplaced` — trees that differ only in places are equal, if all their nodes equal
  themselves.
* `SameParse` — results of parsing that differ only in places; `ParsesTo.sameParse` — sources with
  the same words have such results.
-/

set_option autoImplicit false
namespace Juxta

/-! ## Tokens that stand nowhere in particular -/

namespace Token

variable {t : Token} {ts ts' : List Token}

/-- The token that says a word. -/
def ofWord (w : Kind × Option String) : Token :=
  ⟨w.1, w.2.getD "\n", 0⟩

/-- The token that says the same and stands nowhere in particular. -/
def bare (t : Token) : Token :=
  ofWord t.word

theorem map_bare (h : ts'.map word = ts.map word) : ts'.map bare = ts.map bare := by
  have hcomp (us : List Token) : us.map bare = (us.map word).map ofWord := by
    rw [List.map_map]
    rfl
  rw [hcomp, hcomp, h]

theorem text_bare (h : t.kind ≠ .newline) : t.bare.text = t.text := by
  rw [bare, word, if_neg h]
  rfl

theorem describe_bare (t : Token) : t.bare.describe = t.describe := by
  rw [describe, describe, show t.bare.kind = t.kind from rfl]
  split
  · rfl
  · next h => rw [text_bare h]

/-- For the grammar a token is the same, wherever it stands. -/
theorem Lexical.relabels_bare (h : t.Lexical) : Parser.Relabels (fun _ => 0) t t.bare where
  kind := rfl
  pos := rfl
  text := text_bare
  sign sign hsign := by
    by_cases hk : t.kind = .newline
    · -- neither line end is one of the signs, which begin otherwise
      have hhead : ∀ s ∈ Parser.signs, s.toList.head? ≠ some '\n' := by decide
      obtain ⟨c, l, htext, hlead⟩ := h.exists_cons
      rw [hk] at hlead
      have hbare : t.bare.text = "\n" := by
        rw [bare, word, if_pos hk]
        rfl
      refine iff_of_false ?_ ?_
      · rintro rfl
        refine hhead _ hsign ?_
        rw [hbare]
        rfl
      · rintro rfl
        refine hhead _ hsign ?_
        rw [htext, of_decide_eq_true hlead]
        rfl
    · rw [text_bare hk]

end Token

/-! ## Trees that equal themselves -/

namespace Node

/-- Every node of the tree equals itself. -/
def SelfEqual (n : Node) : Prop :=
  ∀ m ∈ n.subtrees, m.equalsItself = true

theorem SelfEqual.children {k : Kind} {cs : List Node} {start : Option Int}
    (h : (branch k cs start).SelfEqual) : ∀ n ∈ cs, n.SelfEqual := by
  intro n hn m hm
  exact h m (List.mem_cons_of_mem _ (Parser.mem_subtreesOfAll.2 ⟨n, hn, hm⟩))

theorem SelfEqual.branch {cs : List Node} (h : ∀ n ∈ cs, n.SelfEqual) (k : Kind)
    (start : Option Int) : (Node.branch k cs start).SelfEqual :=
  Parser.forall_mem_subtrees_branch rfl h

theorem mem_yieldAll {x : Terminal} {n : Node} {ns : List Node} (hn : n ∈ ns) (hx : x ∈ n.yield)
    (joint : List Terminal) : x ∈ yieldAll joint ns := by
  induction ns with
  | nil => cases hn
  | cons m ns ih =>
    cases ns with
    | nil =>
      rw [List.mem_singleton.1 hn] at hx
      exact hx
    | cons m' ns =>
      rw [yieldAll, List.mem_append, List.mem_append]
      rcases List.mem_cons.1 hn with rfl | hn
      · exact .inl (.inl hx)
      · exact .inr (ih hn)

mutual

/-- A leaf of a tree is written down with it. -/
theorem leaf_mem_yield {k : Kind} {p : Payload} {s : Option Int} :
    ∀ {n : Node}, leaf k p s ∈ n.subtrees → Terminal.leaf k p ∈ n.yield
  | leaf _ _ _, h => by
    obtain ⟨rfl, rfl, rfl⟩ := Node.leaf.inj (List.mem_singleton.1 h)
    exact List.mem_singleton.2 rfl
  | branch k' cs s', h => by
    rw [subtrees, List.mem_cons] at h
    rcases h with h | h
    · cases h
    · rw [yield, List.mem_append, List.mem_append]
      exact .inl (.inr (leaf_mem_yieldAll k'.joint h))

theorem leaf_mem_yieldAll {k : Kind} {p : Payload} {s : Option Int} (joint : List Terminal) :
    ∀ {ns : List Node}, leaf k p s ∈ subtreesOfAll ns → Terminal.leaf k p ∈ yieldAll joint ns
  | n :: ns, h => by
    rw [subtreesOfAll, List.mem_append] at h
    rcases h with h | h
    · exact mem_yieldAll List.mem_cons_self (leaf_mem_yield h) joint
    · have hmem := leaf_mem_yieldAll joint h
      cases ns with
      | nil => cases hmem
      | cons m ns =>
        rw [yieldAll]
        exact List.mem_append_right _ hmem

end

mutual

/-- Trees that differ only in places are equal, if their nodes equal themselves. -/
theorem equal_of_unplaced : ∀ {n n' : Node}, n.unplaced = n'.unplaced → n.SelfEqual →
    n.equal n' = true
  | leaf k p s, leaf k' p' s', h, hself => by
    cases h
    have hp : p.equal p = true := hself (leaf k p s) List.mem_cons_self
    rw [equal, decide_eq_true rfl, hp, Bool.and_self]
  | branch k cs s, branch k' cs' s', h, hself => by
    obtain ⟨rfl, hcs, -⟩ := Node.branch.inj h
    rw [equal, decide_eq_true rfl, equalAll_of_unplacedAll hcs hself.children, Bool.and_self]
  | leaf _ _ _, branch _ _ _, h, _ => nomatch h
  | branch _ _ _, leaf _ _ _, h, _ => nomatch h

theorem equalAll_of_unplacedAll : ∀ {ns ns' : List Node}, unplacedAll ns = unplacedAll ns' →
    (∀ n ∈ ns, n.SelfEqual) → equalAll ns ns' = true
  | [], [], _, _ => rfl
  | n :: ns, n' :: ns', h, hself => by
    obtain ⟨hn, hns⟩ := List.cons.inj h
    obtain ⟨hself, hrest⟩ := List.forall_mem_cons.1 hself
    rw [equalAll, equal_of_unplaced hn hself, equalAll_of_unplacedAll hns hrest, Bool.and_self]
  | [], _ :: _, h, _ => nomatch h
  | _ :: _, [], h, _ => nomatch h

end

end Node

namespace Parser

variable {forms : List ValueForm} {mode : Mode} {source source' : String}
  {ts ts' rest : List Token} {node : Node} {x : String} {f : Int → Int} {g : Token → Token}

/-- What is read from tokens of a source is a number or a text. -/
theorem equal_self_of_terminal {t : Token} (ht : t.Lexical) {k : Node.Kind} {p : Node.Payload}
    (h : t.terminal = .leaf k p) : p.equal p = true := by
  rw [Token.terminal] at h
  cases hk : t.kind <;> rw [hk] at h <;> simp only [Terminal.leaf.injEq, reduceCtorEq] at h
  all_goals obtain ⟨rfl, rfl⟩ := h
  case float =>
    obtain ⟨c, l, htext, hc⟩ := ht.exists_cons
    rw [hk] at hc
    exact Decimal.beq_self_of_readFloat? htext hc
  case integer => exact Payload.equal_int _
  all_goals exact Payload.equal_str _

theorem Reads.selfEqual {phrase : Phrase} {ns : List Node} (h : Reads forms phrase ts ns rest)
    (hbase : phrase.base = []) (hlex : ∀ t ∈ ts, t.Lexical) : ∀ n ∈ ns, n.SelfEqual := by
  obtain ⟨pre, rfl, hcovers⟩ := h.covers hlex
  have hyield := (hcovers [] (hbase ▸ .nil)).yield_eq
  intro n hn m hm
  cases m with
  | branch k cs s => rfl
  | leaf k p s =>
    have hmem := Node.mem_yieldAll hn (Node.leaf_mem_yield hm) []
    rw [hyield, List.nil_append] at hmem
    obtain ⟨t, ht, hterm⟩ := List.mem_map.1 hmem
    exact equal_self_of_terminal (hlex t (List.mem_append_left _ (List.mem_filter.1 ht).1)) hterm

/-! ## Modes -/

namespace Mode

theorem Makes.selfEqual (h : mode.Makes forms ts node) (hlex : ∀ t ∈ ts, t.Lexical) :
    node.SelfEqual := by
  cases h with
  | program h => exact .branch (h.selfEqual rfl hlex) _ _
  | expressions h => exact .branch (h.selfEqual rfl hlex) _ _
  | expression h => exact h.selfEqual rfl hlex node List.mem_cons_self

/-- Relabeled tokens have the same tree in other places. -/
theorem Makes.relabel (h : mode.Makes forms ts node) (hg : RelabelsAll f g ts) :
    mode.Makes forms (ts.map g) (node.relocate f) := by
  cases h with
  | program h =>
    rw [Node.relocate_branch]
    exact .program (h.relabel hg)
  | expressions h =>
    rw [Node.relocate_branch]
    exact .expressions (h.relabel hg)
  | expression h => exact .expression (h.relabel hg)

/-- Relabeled tokens are refused for the same reason. -/
theorem Refuses.relabel (h : mode.Refuses forms ts x rest) (hg : RelabelsAll f g ts) :
    mode.Refuses forms (ts.map g) x (rest.map g) := by
  cases mode with
  | program =>
    rcases h with h | ⟨rfl, hne, ns, h⟩
    · exact .inl (h.relabel hg)
    · exact .inr ⟨rfl, (mt List.map_eq_nil_iff.1 hne), _, h.relabel hg⟩
  | expressions => exact Stuck.relabel h hg
  | expression => exact Stuck.relabel h hg

end Mode

/-! ## Sources -/

theorem describe_bare (t : Option Token) : describe (t.map Token.bare) = describe t := by
  cases t with
  | none => rfl
  | some t => exact t.describe_bare

/-- Results of parsing that differ only in places: equal trees, or errors that expect the same and
find the same. -/
inductive SameParse : Except SourceError Node → Except SourceError Node → Prop
  | tree {n n' : Node} (hequal : n'.equal n = true) (hunplaced : n'.unplaced = n.unplaced) :
      SameParse (.ok n) (.ok n')
  | parseError {e e' : ParseError} (hexpected : e'.expected = e.expected)
      (hfound : e'.found = e.found) : SameParse (.error (.parse e)) (.error (.parse e'))

/-- **Sources with the same words are parsed alike.** -/
theorem ParsesTo.sameParse {result result' : Except SourceError Node}
    (h : ParsesTo forms mode source result) (h' : ParsesTo forms mode source' result')
    (htokens : Token.tokenize source = .ok ts) (htokens' : Token.tokenize source' = .ok ts')
    (hwords : ts'.map Token.word = ts.map Token.word) : SameParse result result' := by
  have hbare := Token.map_bare hwords
  have hg : RelabelsAll (fun _ => 0) Token.bare ts := fun t ht =>
    (Token.lexical_of_tokenize htokens t ht).relabels_bare
  have hg' : RelabelsAll (fun _ => 0) Token.bare ts' := fun t ht =>
    (Token.lexical_of_tokenize htokens' t ht).relabels_bare
  cases h with
  | lexError he => cases he.symm.trans htokens
  | tree hts hnode =>
    cases hts.symm.trans htokens
    have hmakes := hnode.relabel hg
    cases h' with
    | lexError he => cases he.symm.trans htokens'
    | tree hts' hnode' =>
      cases hts'.symm.trans htokens'
      have hmakes' := hnode'.relabel hg'
      rw [hbare] at hmakes'
      have hunplaced := congrArg Node.unplaced (hmakes'.unique hmakes)
      rw [Node.unplaced_relocate, Node.unplaced_relocate] at hunplaced
      have hself := hnode'.selfEqual (Token.lexical_of_tokenize htokens')
      exact .tree (Node.equal_of_unplaced hunplaced hself) hunplaced
    | parseError hts' _ hx =>
      cases hts'.symm.trans htokens'
      exact absurd (hbare ▸ hx.relabel hg') hmakes.not_refuses
  | @parseError _ s x hts hs hx =>
    cases hts.symm.trans htokens
    have hrefuses := hx.relabel hg
    cases h' with
    | lexError he => cases he.symm.trans htokens'
    | tree hts' hnode' =>
      cases hts'.symm.trans htokens'
      exact absurd (hbare ▸ hrefuses) (hnode'.relabel hg').not_refuses
    | @parseError _ s' x' hts' hs' hx' =>
      cases hts'.symm.trans htokens'
      have hrefuses' := hx'.relabel hg'
      rw [hbare] at hrefuses'
      obtain ⟨rfl, hrest⟩ := hrefuses'.unique hrefuses
      refine .parseError rfl ?_
      show describe s'.ahead.head? = describe s.ahead.head?
      have hhead := congrArg (describe ·.head?) hrest
      simpa only [List.head?_map, describe_bare] using hhead

end Parser
end Juxta
