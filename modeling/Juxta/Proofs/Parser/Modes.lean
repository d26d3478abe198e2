import Juxta.Proofs.Parser.Joining
import Juxta.Proofs.Text.Position
import Juxta.Proofs.Token.Tiling

/-!
# Sources and their trees

A source can be parsed in three modes: as a program, as a sequence of statements, and as a single
expression.  This file says for all of them which tree a source has, or why and where it has none.

## What is here

* `Mode.Makes`, `Mode.Refuses` — the tree of a token list in a mode, and why there is none; the
  rules of the modes follow them (`Mode.rule_meets`), and they exclude each other.
* `ParsesTo` — what a source is parsed to, with one rule for each way to fail;
  `parsesTo_parseSource` says that parsing comes to it, traced or not.
* `SourceTree` — the trees of sources: expressions of the grammar, with every node but the root of a
  sequence of statements at an offset in the source.
* `IsLocatedIn` — an error at an offset of the source; all parse errors are such.
-/

set_option autoImplicit false
namespace Juxta

/-- Every token stops in its source. -/
theorem Token.stop_le_of_tokenize {source : String} {ts : List Token}
    (h : tokenize source = .ok ts) :
    ∀ t ∈ ts, ∃ offset : Nat, t.stop = offset ∧ offset ≤ source.length := by
  intro t ht
  obtain ⟨offset, hpos, -⟩ := pos_le_of_tokenize h t ht
  obtain ⟨pieces, hcuts, rfl⟩ := cuts_of_tokenize h
  have hle := (cuts_iff_scansTo.1 hcuts).tiled.contiguous.stop_le t (List.mem_filter.1 ht).1
  refine ⟨offset + t.text.length, by rw [stop, hpos, Int.natCast_add], ?_⟩
  rw [stop, hpos] at hle
  omega

namespace Parser

variable {settings : Settings} {forms : List ValueForm} {mode : Mode} {source : String}
  {ts rest rest' : List Token} {node node' : Node} {x x' : String} {s : State}

/-! ## Trees of token lists -/

/-- `mode.Makes forms ts node`: in this mode the token list has the tree `node`. -/
inductive Mode.Makes (forms : List ValueForm) : Mode → List Token → Node → Prop
  | program {ts : List Token} {ns : List Node} (h : Reads forms .statements ts ns []) :
      Makes forms .program ts (.branch .program ns none)
  | expressions {ts rest : List Token} {ns : List Node} (h : Reads forms .statements ts ns rest) :
      Makes forms .expressions ts (.branch .expressions ns none)
  | expression {ts rest : List Token} {n : Node} (h : Reads forms .expression ts [n] rest) :
      Makes forms .expression ts n

/-- `mode.Refuses forms ts x rest`: in this mode the token list has no tree, since `x` was expected
in front of `rest`. -/
def Mode.Refuses (forms : List ValueForm) (ts : List Token) (x : String) (rest : List Token) :
    Mode → Prop
  | program => Rejects forms ts x rest
  | expressions => Stuck forms .statements ts x rest
  | expression => Stuck forms .expression ts x rest

theorem Mode.Makes.unique (h : mode.Makes forms ts node) (h' : mode.Makes forms ts node') :
    node = node' := by
  cases h with
  | program h =>
    cases h' with
    | program h' => rw [(h.unique h').1]
  | expressions h =>
    cases h' with
    | expressions h' => rw [(h.unique h').1]
  | expression h =>
    cases h' with
    | expression h' => exact (List.cons.inj (h.unique h').1).1

theorem Mode.Makes.not_refuses (h : mode.Makes forms ts node) :
    ¬ mode.Refuses forms ts x rest := by
  cases h with
  | program h => exact h.not_rejects
  | expressions h => exact h.not_stuck
  | expression h => exact h.not_stuck

theorem Mode.Refuses.unique (h : mode.Refuses forms ts x rest)
    (h' : mode.Refuses forms ts x' rest') : x = x' ∧ rest = rest' := by
  cases mode with
  | program => exact Rejects.unique h h'
  | expressions => exact Stuck.unique h h'
  | expression => exact Stuck.unique h h'

/-- The rule of every mode follows the grammar. -/
theorem Mode.rule_meets :
    Meets (mode.rule settings) s (fun node _ => mode.Makes settings.forms s.ahead node)
      fun x rest => mode.Refuses settings.forms s.ahead x rest := by
  cases mode with
  | program =>
    refine .mono program_meets ?_ fun _ _ h => h
    rintro _ _ ⟨-, ns, rfl, h⟩
    exact .program h
  | expressions =>
    refine .mono expressions_meets ?_ fun _ _ h => h
    rintro _ _ ⟨ns, rfl, h⟩
    exact .expressions h
  | expression =>
    have h := (grammar_agrees settings (s.ahead.length + 1)).expression s (Nat.lt_succ_self _)
    exact .mono h (fun _ _ h => .expression h) fun _ _ h => h

/-! ## Trees of sources -/

/-- `ParsesTo forms mode source result`: this comes of parsing the source. -/
inductive ParsesTo (forms : List ValueForm) (mode : Mode) (source : String) :
    Except SourceError Node → Prop
  | lexError {e : LexError} (h : Token.tokenize source = .error e) :
      ParsesTo forms mode source (.error (.lex e))
  | parseError {ts : List Token} {s : State} {x : String} (htokens : Token.tokenize source = .ok ts)
      (hs : s.tokens = ts) (h : mode.Refuses forms ts x s.ahead) :
      ParsesTo forms mode source (.error (.parse ((s.error x).locate source)))
  | tree {ts : List Token} {node : Node} (htokens : Token.tokenize source = .ok ts)
      (h : mode.Makes forms ts node) : ParsesTo forms mode source (.ok node)

/-- **Parsing a source follows the grammar in every mode**, traced or not. -/
theorem parsesTo_parseSource (settings : Settings) (mode : Mode) (source : String) :
    ParsesTo settings.forms mode source (parseSource settings mode source).tree := by
  rw [parseSource]
  cases htokens : Token.tokenize source with
  | error e => exact .lexError htokens
  | ok ts =>
    have hmeets : Meets (mode.rule settings) (State.ofTokens ts) _ _ := Mode.rule_meets
    dsimp only
    cases hparse : parseTokens settings mode ts with
    | ok node s =>
      rw [Meets, show mode.rule settings (State.ofTokens ts) = .ok node s from hparse] at hmeets
      exact .tree htokens hmeets.2
    | error e s =>
      rw [Meets, show mode.rule settings (State.ofTokens ts) = .error e s from hparse] at hmeets
      obtain ⟨hs, x, rfl, hx⟩ := hmeets
      exact .parseError htokens hs hx

/-- The error at a cursor depends only on where in the token list the cursor stands. -/
theorem State.error_eq {s s' : State} (htokens : s.tokens = s'.tokens) (hahead : s.ahead = s'.ahead)
    (x : String) : s.error x = s'.error x := by
  have hseen : s.seen = s'.seen := by
    rw [State.tokens, State.tokens, hahead] at htokens
    exact List.reverse_inj.1 (List.append_cancel_right htokens)
  rw [State.error, State.error, State.current, State.current, State.offset, State.offset, hseen,
    hahead]

/-- A source is parsed to one result only. -/
theorem ParsesTo.unique {result result' : Except SourceError Node}
    (h : ParsesTo forms mode source result) (h' : ParsesTo forms mode source result') :
    result' = result := by
  cases h with
  | lexError he =>
    cases h' with
    | lexError he' =>
      cases he.symm.trans he'
      rfl
    | parseError htokens | tree htokens => cases he.symm.trans htokens
  | parseError htokens hs hx =>
    cases h' with
    | lexError he => cases he.symm.trans htokens
    | parseError htokens' hs' hx' =>
      cases htokens.symm.trans htokens'
      obtain ⟨rfl, hahead⟩ := hx.unique hx'
      rw [State.error_eq (hs.trans hs'.symm) hahead]
    | tree htokens' h' =>
      cases htokens.symm.trans htokens'
      exact absurd hx h'.not_refuses
  | tree htokens hnode =>
    cases h' with
    | lexError he => cases he.symm.trans htokens
    | parseError htokens' _ hx =>
      cases htokens.symm.trans htokens'
      exact absurd hx hnode.not_refuses
    | tree htokens' hnode' =>
      cases htokens.symm.trans htokens'
      rw [hnode.unique hnode']

/-- A tree that a source of the given length can have: an expression, or a sequence of statements,
whose root has no place. -/
inductive SourceTree (length : Nat) : Node → Prop
  | statements {k : Node.Kind} {ns : List Node} (hk : k = .program ∨ k = .expressions)
      (hshape : ∀ n ∈ ns, HasShape .expression n) (hstarts : ∀ n ∈ ns, n.StartsIn length) :
      SourceTree length (.branch k ns none)
  | expression {n : Node} (hshape : HasShape .expression n) (hstarts : n.StartsIn length) :
      SourceTree length n

theorem Mode.Makes.sourceTree (h : mode.Makes forms ts node)
    (htokens : Token.tokenize source = .ok ts) : SourceTree source.length node := by
  have hlex := Token.lexical_of_tokenize htokens
  cases h with
  | program h =>
    exact .statements (.inl rfl) (h.hasShape hlex trivial) (h.startsIn rfl htokens)
  | expressions h =>
    exact .statements (.inr rfl) (h.hasShape hlex trivial) (h.startsIn rfl htokens)
  | expression h =>
    have hshape := h.hasShape hlex trivial
    have hstarts := h.startsIn rfl htokens
    exact .expression (List.forall_mem_singleton.1 hshape) (List.forall_mem_singleton.1 hstarts)

/-- What a source is parsed to is a tree of it. -/
theorem ParsesTo.sourceTree (h : ParsesTo forms mode source (.ok node)) :
    SourceTree source.length node := by
  cases h with
  | tree htokens h => exact h.sourceTree htokens

/-! ## Errors -/

/-- The error has an offset in the source, and the position of that offset. -/
def IsLocatedIn (source : String) (e : ParseError) : Prop :=
  ∃ (offset : Nat) (q : Position), e.offset = some ↑offset ∧ offset ≤ source.length ∧
    e.position = some q ∧ Position.ofOffset? source offset = some q

/-- The cursor of a parse stands in the source. -/
theorem State.exists_offset (htokens : Token.tokenize source = .ok ts) (hs : s.tokens = ts) :
    ∃ offset : Nat, s.offset = offset ∧ offset ≤ source.length := by
  subst hs
  rw [State.offset]
  split
  · next t ahead hahead =>
    refine Token.pos_le_of_tokenize htokens t ?_
    rw [State.tokens, hahead]
    exact List.mem_append_right _ List.mem_cons_self
  · next t seen hahead hseen =>
    refine Token.stop_le_of_tokenize htokens t ?_
    rw [State.tokens, hseen]
    exact List.mem_append_left _ (List.mem_reverse.2 List.mem_cons_self)
  · exact ⟨0, rfl, Nat.zero_le _⟩

/-- **Every parse error is located in its source.** -/
theorem ParsesTo.isLocatedIn {e : ParseError}
    (h : ParsesTo forms mode source (.error (.parse e))) : IsLocatedIn source e := by
  cases h with
  | @parseError ts s x htokens hs _ =>
    obtain ⟨offset, hoffset, hle⟩ := State.exists_offset htokens hs
    have hq := Position.ofOffset?_of_le hle
    refine ⟨offset, _, congrArg some hoffset, hle, ?_, hq⟩
    rw [← hq, ← hoffset]
    rfl

end Parser
end Juxta
