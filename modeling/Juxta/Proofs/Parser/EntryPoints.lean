import Juxta.Proofs.Parser.EarliestError
import Juxta.Proofs.Parser.Modes

/-!
# The three modes agree

A token list can be parsed as a program, as a sequence of statements, or as a single expression.  A
program has to end where the list does; the other two stop where they can go no further, and leave
the rest ahead.  This file says that they differ in nothing else.

Statements stop in front of a closing brace that nothing opened, and to them such a brace is the
same as the end of the list.  So the statements in front of it are a program by themselves, and a
program can be put in front of it without becoming another one.

## What is here

* `Succeeds`, `Fails` — what comes of a parse, and where it leaves the cursor; `succeeds_iff` and
  `fails_iff` say both in terms of the grammar.
* `Reads.truncate`, `Reads.extend` — statements up to a brace, with and without what follows.
* `modes_agree` — the three modes, one in terms of the other.
-/

set_option autoImplicit false
namespace Juxta.Parser

variable {settings : Settings} {forms : List ValueForm} {mode : Mode} {s : State}
  {ts p rest rest' : List Token} {node node' : Node} {ns : List Node} {e : ParseError} {x : String}
  {place : Nat}

/-! ## Where a parse stops -/

/-- The parse in this mode makes the tree and leaves the cursor at the place with this number. -/
def Succeeds (settings : Settings) (mode : Mode) (ts : List Token) (node : Node) (place : Nat) :
    Prop :=
  ∃ s, parseTokens settings mode ts = .ok node s ∧ s.cursor = place

/-- The parse in this mode fails with the error and leaves the cursor at the place with this
number. -/
def Fails (settings : Settings) (mode : Mode) (ts : List Token) (e : ParseError) (place : Nat) :
    Prop :=
  ∃ s, parseTokens settings mode ts = .error e s ∧ s.cursor = place

/-- The error of a parse that expected something else at a place. -/
def errorAt (ts : List Token) (place : Nat) (expected : String) : ParseError :=
  { expected, found := describe ts[place]?, offset := some (errorOffset ts place) }

/-- `mode.Takes forms ts rest node`: in this mode the front of the token list has the tree `node`,
and `rest` is left. -/
def Mode.Takes (forms : List ValueForm) (ts rest : List Token) (node : Node) : Mode → Prop
  | program => rest = [] ∧ ∃ ns, node = .branch .program ns none ∧ Reads forms .statements ts ns []
  | expressions => ∃ ns, node = .branch .expressions ns none ∧ Reads forms .statements ts ns rest
  | expression => Reads forms .expression ts [node] rest

theorem Mode.Takes.makes (h : mode.Takes forms ts rest node) : mode.Makes forms ts node := by
  cases mode with
  | program =>
    obtain ⟨-, ns, rfl, h⟩ := h
    exact .program h
  | expressions =>
    obtain ⟨ns, rfl, h⟩ := h
    exact .expressions h
  | expression => exact .expression h

theorem Mode.Takes.unique (h : mode.Takes forms ts rest node)
    (h' : mode.Takes forms ts rest' node') : node = node' ∧ rest = rest' := by
  refine ⟨h.makes.unique h'.makes, ?_⟩
  cases mode with
  | program => rw [h.1, h'.1]
  | expressions =>
    obtain ⟨ns, -, h⟩ := h
    obtain ⟨ns', -, h'⟩ := h'
    exact (h.unique h').2
  | expression => exact (Reads.unique h h').2

/-- The rule of every mode takes what the grammar says. -/
theorem Mode.rule_takes :
    Meets (mode.rule settings) s (fun node rest => mode.Takes settings.forms s.ahead rest node)
      fun x rest => mode.Refuses settings.forms s.ahead x rest := by
  cases mode with
  | program => exact program_meets
  | expressions => exact expressions_meets
  | expression => exact (grammar_agrees settings _).expression s (Nat.lt_succ_self _)

theorem State.drop_cursor (h : s.tokens = ts) : ts.drop s.cursor = s.ahead := by
  rw [← h, State.tokens, State.cursor, ← List.length_reverse]
  exact List.drop_left

theorem State.cursor_le (h : s.tokens = ts) : s.cursor ≤ ts.length := by
  rw [← h, State.tokens, State.cursor, List.length_append, List.length_reverse]
  exact Nat.le_add_right _ _

theorem State.cursor_eq (h : s.tokens = ts) (hplace : place ≤ ts.length)
    (hahead : s.ahead = ts.drop place) : s.cursor = place := by
  have hlength := congrArg List.length ((State.drop_cursor h).trans hahead)
  have hle := State.cursor_le h
  rw [List.length_drop, List.length_drop] at hlength
  omega

theorem State.error_eq_errorAt (h : s.tokens = ts) (x : String) :
    s.error x = errorAt ts s.cursor x := by
  rw [State.error, errorAt, State.getElem?_cursor h, State.offset_eq h]

/-- A parse succeeds exactly where the grammar makes a tree, and stops where that tree ends. -/
theorem succeeds_iff : Succeeds settings mode ts node place ↔
    place ≤ ts.length ∧ mode.Takes settings.forms ts (ts.drop place) node := by
  have hm : Meets (mode.rule settings) (State.ofTokens ts) _ _ := Mode.rule_takes
  rw [Meets] at hm
  rw [Succeeds, parseTokens]
  cases hp : mode.rule settings (State.ofTokens ts) with
  | ok node' s =>
    rw [hp] at hm
    obtain ⟨hs, htakes⟩ := hm
    constructor
    · rintro ⟨_, ⟨⟩, rfl⟩
      exact ⟨State.cursor_le hs, (State.drop_cursor hs).symm ▸ htakes⟩
    · rintro ⟨hplace, htakes'⟩
      obtain ⟨rfl, hahead⟩ := Mode.Takes.unique htakes htakes'
      exact ⟨s, rfl, State.cursor_eq hs hplace hahead⟩
  | error e s =>
    rw [hp] at hm
    obtain ⟨-, x, -, hx⟩ := hm
    constructor
    · rintro ⟨_, ⟨⟩, _⟩
    · rintro ⟨-, htakes⟩
      exact absurd hx htakes.makes.not_refuses

/-- A parse fails exactly where the grammar makes no tree, and stops in front of the token that does
not fit. -/
theorem fails_iff : Fails settings mode ts e place ↔
    place ≤ ts.length ∧ ∃ x, e = errorAt ts place x ∧
      mode.Refuses settings.forms ts x (ts.drop place) := by
  have hm : Meets (mode.rule settings) (State.ofTokens ts) _ _ := Mode.rule_takes
  rw [Meets] at hm
  rw [Fails, parseTokens]
  cases hp : mode.rule settings (State.ofTokens ts) with
  | ok node s =>
    rw [hp] at hm
    constructor
    · rintro ⟨_, ⟨⟩, _⟩
    · rintro ⟨-, x, -, hx⟩
      exact absurd hx hm.2.makes.not_refuses
  | error e' s =>
    rw [hp] at hm
    obtain ⟨hs, x, rfl, hx⟩ := hm
    constructor
    · rintro ⟨_, ⟨⟩, rfl⟩
      refine ⟨State.cursor_le hs, x, State.error_eq_errorAt hs x, ?_⟩
      exact (State.drop_cursor hs).symm ▸ hx
    · rintro ⟨hplace, x', rfl, hx'⟩
      obtain ⟨rfl, hahead⟩ := Mode.Refuses.unique hx hx'
      have hcursor := State.cursor_eq hs hplace hahead
      refine ⟨s, ?_, hcursor⟩
      rw [State.error_eq_errorAt hs, hcursor]
      rfl

theorem succeeds_program_iff : Succeeds settings .program ts (.branch .program ns none) place ↔
    place = ts.length ∧ Reads settings.forms .statements ts ns [] := by
  rw [succeeds_iff]
  constructor
  · rintro ⟨hle, hrest, ns', hnode, h⟩
    obtain ⟨-, rfl, -⟩ := Node.branch.inj hnode
    exact ⟨Nat.le_antisymm hle (List.drop_eq_nil_iff.1 hrest), h⟩
  · rintro ⟨rfl, h⟩
    exact ⟨Nat.le_refl _, List.drop_length, ns, rfl, h⟩

theorem succeeds_expressions_iff :
    Succeeds settings .expressions ts (.branch .expressions ns none) place ↔
      place ≤ ts.length ∧ Reads settings.forms .statements ts ns (ts.drop place) := by
  rw [succeeds_iff]
  refine and_congr_right fun _ => ⟨?_, fun h => ⟨ns, rfl, h⟩⟩
  rintro ⟨ns', hnode, h⟩
  obtain ⟨-, rfl, -⟩ := Node.branch.inj hnode
  exact h

/-! ## Statements in front of a brace -/

/-- Statements stop at the end or in front of a closing brace. -/
theorem Reads.stops {phrase : Phrase} {input : List Token} (h : Reads forms phrase input ns rest)
    (hphrase : phrase = .statements ∨ phrase = .afterStatement) :
    begins opensStatement rest = false := by
  induction h with
  | noStatement _ hend => exact hend
  | newline _ _ ih => exact ih (.inl rfl)
  | statement _ _ _ _ _ ih => exact ih (.inr rfl)
  | semicolon _ _ ih => exact ih (.inl rfl)
  | noSemicolon _ _ ih => exact ih (.inl rfl)
  | _ => rcases hphrase with h | h <;> cases h

/-- The place is the end of the list, or a closing brace stands there. -/
def StopsAt (ts : List Token) (place : Nat) : Prop :=
  place = ts.length ∨ ∃ t, ts[place]? = some t ∧ t.text = "\x7d"

theorem StopsAt.le (h : StopsAt ts place) : place ≤ ts.length := by
  rcases h with rfl | ⟨t, ht, -⟩
  · exact Nat.le_refl _
  · exact Nat.le_of_lt (List.getElem?_eq_some_iff.1 ht).1

theorem stopsAt_append : StopsAt (p ++ rest) p.length ↔ begins opensStatement rest = false := by
  rw [StopsAt, List.length_append, List.getElem?_append_right (Nat.le_refl _), Nat.sub_self]
  cases rest with
  | nil => simp
  | cons t rest => simp [opensStatement]

theorem exists_split (h : place ≤ ts.length) : ∃ p rest, ts = p ++ rest ∧ place = p.length :=
  ⟨ts.take place, ts.drop place, (List.take_append_drop place ts).symm, by simp [h]⟩

/-- Nothing in front of a closing brace of a source continues statements. -/
theorem closing_of_stops (hlex : ∀ t ∈ rest, t.Lexical)
    (h : begins opensStatement rest = false) : Closing .statements rest := by
  cases rest with
  | nil => exact .nil _
  | cons t rest =>
    have htext : t.text = "\x7d" := by simpa [opensStatement] using h
    have hkind := (hlex t List.mem_cons_self).kind_of_text (c := '\x7d') rfl htext
    have hends : endsCall t = true := by rw [endsCall, htext]; simp
    intro p hp
    simp only [Phrase.tests, expressionTests, List.mem_cons, List.not_mem_nil, or_false] at hp
    rcases hp with rfl | rfl | rfl | rfl | rfl | rfl | rfl | rfl <;>
      simp [htext, hkind, hends, opensStatement]

/-- Statements that are read up to some tokens are read without these as well. -/
theorem Reads.truncate (h : Reads forms .statements (p ++ rest) ns rest) :
    Reads forms .statements p ns [] := by
  simpa using h.exchange_append ((Closing.nil _).quieter rest)

/-- Statements up to the end are read in front of a closing brace as well. -/
theorem Reads.extend (h : Reads forms .statements p ns []) (hrest : Closing .statements rest) :
    Reads forms .statements (p ++ rest) ns rest := by
  have hnil : Reads forms .statements (p ++ []) ns [] := by rwa [List.append_nil]
  exact hnil.exchange_append (hrest.quieter [])

/-- The statements in front of a place, with and without what follows. -/
theorem reads_statements_iff_take (hlex : ∀ t ∈ ts, t.Lexical) (hplace : place ≤ ts.length) :
    Reads forms .statements ts ns (ts.drop place) ↔
      Reads forms .statements (ts.take place) ns [] ∧ StopsAt ts place := by
  obtain ⟨p, rest, rfl, rfl⟩ := exists_split hplace
  rw [List.drop_left, List.take_left, stopsAt_append]
  constructor
  · intro h
    exact ⟨h.truncate, h.stops (.inl rfl)⟩
  · rintro ⟨h, hstops⟩
    exact h.extend (closing_of_stops (fun t ht => hlex t (List.mem_append_right p ht)) hstops)

/-! ## Cutting what is not looked at -/

theorem exists_take {k : Nat} (hplace : place ≤ ts.length) (hk : place < k) :
    ∃ p rest rest', ts = p ++ rest ∧ ts.take k = p ++ rest' ∧ place = p.length ∧
      rest'.head? = rest.head? := by
  obtain ⟨p, rest, rfl, rfl⟩ := exists_split hplace
  refine ⟨p, rest, rest.take (k - p.length), rfl, ?_, rfl, ?_⟩
  · rw [List.take_append, List.take_of_length_le (Nat.le_of_lt hk)]
  · rw [List.head?_take, if_neg (by omega)]

/-- Nothing is looked at behind the token at which an expression ends. -/
theorem Succeeds.take {k : Nat} (h : Succeeds settings .expression ts node place) (hk : place < k) :
    Succeeds settings .expression (ts.take k) node place := by
  rw [succeeds_iff] at h ⊢
  obtain ⟨hplace, h⟩ := h
  obtain ⟨p, rest, rest', rfl, hcut, rfl, hhead⟩ := exists_take hplace hk
  rw [List.drop_left] at h
  rw [hcut, List.drop_left, List.length_append]
  exact ⟨Nat.le_add_right _ _, Reads.exchange_append h (.of_head? hhead)⟩

theorem errorAt_append (hhead : rest'.head? = rest.head?) (x : String) :
    errorAt (p ++ rest') p.length x = errorAt (p ++ rest) p.length x := by
  cases rest with
  | nil => rw [List.head?_eq_none_iff.1 hhead]
  | cons t rest =>
    obtain ⟨rest'', rfl⟩ := List.head?_eq_some_iff.1 hhead
    simp [errorAt, errorOffset]

/-- Nothing is looked at behind the token that does not fit. -/
theorem Fails.take {k : Nat} (h : Fails settings .expression ts e place) (hk : place < k) :
    Fails settings .expression (ts.take k) e place := by
  rw [fails_iff] at h ⊢
  obtain ⟨hplace, x, rfl, h⟩ := h
  obtain ⟨p, rest, rest', rfl, hcut, rfl, hhead⟩ := exists_take hplace hk
  rw [List.drop_left] at h
  rw [hcut, List.drop_left, List.length_append]
  obtain ⟨p', hp', h⟩ := Stuck.exchange h
  rw [List.append_cancel_right hp']
  refine ⟨Nat.le_add_right _ _, x, ?_, h rest' hhead⟩
  exact (errorAt_append hhead x).symm

/-! ## One mode in terms of the other -/

/-- As statements a program has the same trees, and all other errors are the same. -/
theorem fails_program_iff : Fails settings .program ts e place ↔
    (e = errorAt ts place "end of input" ∧ place < ts.length ∧
      ∃ ns, Succeeds settings .expressions ts (.branch .expressions ns none) place) ∨
    Fails settings .expressions ts e place := by
  rw [fails_iff, fails_iff]
  constructor
  · rintro ⟨hplace, x, rfl, h | ⟨rfl, hrest, ns, h⟩⟩
    · exact .inr ⟨hplace, x, rfl, h⟩
    · refine .inl ⟨rfl, Nat.lt_of_not_le fun hle => hrest (List.drop_eq_nil_iff.2 hle), ns, ?_⟩
      exact succeeds_expressions_iff.2 ⟨hplace, h⟩
  · rintro (⟨rfl, hlt, ns, h⟩ | ⟨hplace, x, rfl, h⟩)
    · obtain ⟨hplace, h⟩ := succeeds_expressions_iff.1 h
      refine ⟨hplace, _, rfl, .inr ⟨rfl, fun hnil => ?_, ns, h⟩⟩
      exact absurd (List.drop_eq_nil_iff.1 hnil) (Nat.not_le_of_lt hlt)
    · exact ⟨hplace, x, rfl, .inl h⟩

/-- Up to where they stop, statements are a program; and they stop at the end or in front of a
closing brace. -/
theorem succeeds_expressions_iff_take (hlex : ∀ t ∈ ts, t.Lexical) :
    Succeeds settings .expressions ts (.branch .expressions ns none) place ↔
      (∃ d, Succeeds settings .program (ts.take place) (.branch .program ns none) d) ∧
        StopsAt ts place := by
  simp only [succeeds_expressions_iff, succeeds_program_iff, exists_eq_left]
  constructor
  · rintro ⟨hplace, h⟩
    exact (reads_statements_iff_take hlex hplace).1 h
  · rintro ⟨h, hstops⟩
    exact ⟨hstops.le, (reads_statements_iff_take hlex hstops.le).2 ⟨h, hstops⟩⟩

/-- Statements that begin at once begin with an expression. -/
theorem Succeeds.first (hline : begins (Token.hasKind .newline) ts = false)
    (hmore : begins opensStatement ts = true)
    (h : Succeeds settings .expressions ts (.branch .expressions ns none) place) :
    ∃ n ns' d, ns = n :: ns' ∧ Succeeds settings .expression ts n d := by
  obtain ⟨-, h⟩ := succeeds_expressions_iff.1 h
  generalize ts.drop place = rest at h
  cases h with
  | newline ht => simp [ht] at hline
  | noStatement _ hend => simp [hend] at hmore
  | @statement _ mid _ n ns _ _ hn _ =>
    obtain ⟨p, rfl⟩ := hn.suffix
    refine ⟨n, ns, p.length, rfl, succeeds_iff.2 ⟨?_, ?_⟩⟩
    · rw [List.length_append]
      exact Nat.le_add_right _ _
    · rwa [List.drop_left]

/-- Statements that begin at once fail where their first expression does. -/
theorem Fails.first (hline : begins (Token.hasKind .newline) ts = false)
    (hmore : begins opensStatement ts = true) (h : Fails settings .expression ts e place) :
    Fails settings .expressions ts e place := by
  obtain ⟨hplace, x, rfl, hstuck⟩ := fails_iff.1 h
  exact fails_iff.2 ⟨hplace, x, rfl, .firstStatement hline hmore hstuck⟩

/-- How the three modes of parsing a token list go together. -/
structure ModesAgree (settings : Settings) (ts : List Token) : Prop where
  /-- Statements are a program up to where they stop, at the end or in front of a closing brace. -/
  statements : ∀ ns place,
    Succeeds settings .expressions ts (.branch .expressions ns none) place ↔
      (∃ d, Succeeds settings .program (ts.take place) (.branch .program ns none) d) ∧
        StopsAt ts place
  /-- A program is read as statements wherever a closing brace follows it, or nothing. -/
  behind : ∀ p rest ns d, ts = p ++ rest →
    (rest = [] ∨ ∃ t rest', rest = t :: rest' ∧ t.text = "\x7d") →
    Succeeds settings .program p (.branch .program ns none) d →
      Succeeds settings .expressions ts (.branch .expressions ns none) p.length
  /-- Statements that make up the whole list are its program. -/
  whole : ∀ ns, Succeeds settings .expressions ts (.branch .expressions ns none) ts.length →
    Succeeds settings .program ts (.branch .program ns none) ts.length
  /-- Statements that do not are no program, since that should have ended where they do. -/
  part : ∀ ns place, Succeeds settings .expressions ts (.branch .expressions ns none) place →
    place ≠ ts.length → Fails settings .program ts (errorAt ts place "end of input") place
  /-- Every other error of the program is one of the statements. -/
  errors : ∀ e place, Fails settings .program ts e place →
    (e = errorAt ts place "end of input" ∧ place < ts.length ∧
      ∃ ns, Succeeds settings .expressions ts (.branch .expressions ns none) place) ∨
    Fails settings .expressions ts e place
  /-- The first statement is the expression in front. -/
  first : ts ≠ [] → begins (Token.hasKind .newline) ts = false →
    begins (Token.hasText "\x7d") ts = false →
      (∀ ns place, Succeeds settings .expressions ts (.branch .expressions ns none) place →
        ∃ n ns' d, ns = n :: ns' ∧ Succeeds settings .expression ts n d) ∧
      ∀ e place, Fails settings .expression ts e place → Fails settings .expressions ts e place
  /-- An expression, or the error in one, does not depend on tokens behind the next one. -/
  cut : ∀ place k, place < k →
    (∀ n, Succeeds settings .expression ts n place →
      Succeeds settings .expression (ts.take k) n place) ∧
    ∀ e, Fails settings .expression ts e place → Fails settings .expression (ts.take k) e place

/-- **The three modes agree** on all lists of tokens that a source can have. -/
theorem modes_agree (settings : Settings) {ts : List Token} (hlex : ∀ t ∈ ts, t.Lexical) :
    ModesAgree settings ts where
  statements ns place := succeeds_expressions_iff_take hlex
  behind p rest ns d hts hrest h := by
    subst hts
    refine (succeeds_expressions_iff_take hlex).2 ⟨⟨d, by rwa [List.take_left]⟩, ?_⟩
    rw [stopsAt_append]
    rcases hrest with rfl | ⟨t, rest', rfl, ht⟩
    · rfl
    · simp [opensStatement, ht]
  whole ns h := by
    obtain ⟨⟨d, hd⟩, -⟩ := (succeeds_expressions_iff_take hlex).1 h
    rw [List.take_length] at hd
    exact succeeds_program_iff.2 ⟨rfl, (succeeds_program_iff.1 hd).2⟩
  part ns place h hne := by
    have hle := (succeeds_expressions_iff.1 h).1
    exact fails_program_iff.2 (.inl ⟨rfl, Nat.lt_of_le_of_ne hle hne, ns, h⟩)
  errors e place h := fails_program_iff.1 h
  first hne hline hbrace := by
    have hmore : begins opensStatement ts = true := by
      cases ts with
      | nil => exact absurd rfl hne
      | cons t ts => simpa [opensStatement] using hbrace
    exact ⟨fun _ _ h => h.first hline hmore, fun _ _ h => h.first hline hmore⟩
  cut place k hk := ⟨fun _ h => h.take hk, fun _ h => h.take hk⟩

/-- Behind two statements stands a brace that nothing opened, and behind that an integer that is too
large: it is an error of neither mode.  The expression in front ends before the second token. -/
theorem modes_agree_unopened :
    let ts : List Token := [⟨.ident, "f", 0⟩, ⟨.punctuation, ";", 1⟩, ⟨.ident, "g", 3⟩,
      ⟨.punctuation, "\x7d", 4⟩, ⟨.integer, "9223372036854775808", 6⟩]
    let f := textLeaf .identifier ⟨.ident, "f", 0⟩
    let g := textLeaf .identifier ⟨.ident, "g", 3⟩
    Token.tokenize "f; g\x7d 9223372036854775808" = .ok ts ∧
      Succeeds .standard .expressions ts (.branch .expressions [f, g] none) 3 ∧
      Fails .standard .program ts ⟨"end of input", "\"\x7d\"", some 4, none⟩ 3 ∧
      (∃ d, Succeeds .standard .program (ts.take 3) (.branch .program [f, g] none) d) ∧
      (∃ d, Succeeds .standard .expression ts f d) ∧
      Succeeds .standard .expression (ts.take 2) f 1 := by
  intro ts f g
  have htokens : Token.tokenize "f; g\x7d 9223372036854775808" = .ok ts := by decide +kernel
  have hagree := modes_agree .standard (Token.lexical_of_tokenize htokens)
  have hstatements : Succeeds .standard .expressions ts (.branch .expressions [f, g] none) 3 :=
    ⟨_, rfl, rfl⟩
  have hexpression : Succeeds .standard .expression ts f 1 := ⟨_, rfl, rfl⟩
  obtain ⟨n, ns, d, hns, hfirst⟩ :=
    (hagree.first (List.cons_ne_nil _ _) rfl rfl).1 _ _ hstatements
  obtain ⟨rfl, -⟩ := List.cons.inj hns
  exact ⟨htokens, hstatements, hagree.part _ _ hstatements (by decide),
    ((hagree.statements _ _).1 hstatements).1, ⟨d, hfirst⟩,
    (hagree.cut 1 2 (by decide)).1 f hexpression⟩

end Juxta.Parser
