import Juxta.Parser.Source
import Juxta.Proofs.Parser.InStep
import Juxta.Proofs.Token.Lexical
import Mathlib.Data.List.Basic

/-!
# The order of the forms of a value

The forms of a value are tried in turn, and the first that applies is taken.  Two of them look at
the text of a token and the others at its class, so that a token made by hand can lead values of two
forms; then the order decides.  A token of a source leads a value of one form at most, since its
text says of which class it is.  On sources the order is therefore of no account, in whole parses
and in those that fail deep inside a form.

## What is here

* `ValueForm.eq_of_leads` — a token of a source leads one form at most.
* `interchangeable_of_perm` — so its forms may be tried in another order.
* `Indistinguishable` — every rule comes to the same with two settings, from a state.
* `order_of_forms_irrelevant` — so it is with the forms in any order, from every place in a source.
-/

set_option autoImplicit false
namespace Juxta.Parser

variable {settings settings' : Settings} {forms forms' : List ValueForm} {form form' : ValueForm}
  {t : Token} {s : State}

/-! ## One form at most -/

/-- The class of the tokens that lead a form. -/
def ValueForm.leadingKind : ValueForm → Token.Kind
  | parens | block => .punctuation
  | identifier => .ident
  | integer => .integer
  | float => .float
  | string => .string
  | quoted => .quote
  | unquote => .unquote

/-- The two forms that look at a text look at that of a punctuation mark. -/
theorem ValueForm.kind_of_leads (h : t.Lexical) (hleads : form.leads t = true) :
    t.kind = form.leadingKind := by
  cases form with
  | parens => exact h.kind_of_text (c := '(') rfl (Token.hasText_eq_true.1 hleads)
  | block => exact h.kind_of_text (c := '\x7b') rfl (Token.hasText_eq_true.1 hleads)
  | _ => exact Token.hasKind_eq_true.1 hleads

/-- **A token of a source leads one form at most.** -/
theorem ValueForm.eq_of_leads (h : t.Lexical) (hleads : form.leads t = true)
    (hleads' : form'.leads t = true) : form = form' := by
  have hkind := (kind_of_leads h hleads).symm.trans (kind_of_leads h hleads')
  have htexts : ¬ (t.text = "(" ∧ t.text = "\x7b") := by
    rintro ⟨hparen, hbrace⟩
    exact absurd (hparen.symm.trans hbrace) (by decide)
  cases form <;> cases form' <;>
    simp_all [leadingKind, leads]

/-- Any order of the forms finds the one that a token of a source leads. -/
theorem formAt_eq_some_iff (h : t.Lexical) :
    formAt forms t = some form ↔ form ∈ forms ∧ form.leads t = true := by
  constructor
  · intro hform
    exact ⟨List.mem_of_find?_eq_some hform, by simpa using List.find?_some hform⟩
  · rintro ⟨hmem, hleads⟩
    have hsome : (formAt forms t).isSome = true := List.find?_isSome.2 ⟨form, hmem, hleads⟩
    obtain ⟨form', hform'⟩ := Option.isSome_iff_exists.1 hsome
    have hleads' : form'.leads t = true := by simpa using List.find?_some hform'
    rw [hform', ValueForm.eq_of_leads h hleads hleads']

/-- A token made by hand can lead values of two forms, of which the order chooses one. -/
example :
    let t : Token := ⟨.ident, "(", 0⟩
    formAt Settings.standard.forms t = some .parens ∧
      formAt Settings.standard.forms.reverse t = some .identifier := by
  decide

theorem interchangeable_of_perm (hperm : forms.Perm forms') (tracing : Bool) {ts : List Token}
    (hlex : ∀ t ∈ ts, t.Lexical) :
    Settings.Interchangeable ⟨tracing, forms⟩ ⟨tracing, forms'⟩ ts where
  tracing := rfl
  formAt t ht := by
    refine Option.ext fun form => ?_
    rw [formAt_eq_some_iff (hlex t ht), formAt_eq_some_iff (hlex t ht), hperm.mem_iff]

/-- A form that makes something or fails is one that the token at the cursor leads. -/
theorem ValueForm.begins_leads {nested : Nested} (h : ∀ s', form.parser nested s ≠ .ok none s') :
    begins form.leads s.ahead = true := by
  cases hb : begins form.leads s.ahead with
  | true => rfl
  | false => exact absurd (parser_eq_none_iff.2 ⟨hb, rfl⟩) (h s)

/-- **At a token of a source one form at most makes something or fails.** -/
theorem ValueForm.eq_of_applies {nested : Nested} (hlex : ∀ t ∈ s.tokens, t.Lexical)
    (h : ∀ s', form.parser nested s ≠ .ok none s')
    (h' : ∀ s', form'.parser nested s ≠ .ok none s') : form = form' := by
  obtain ⟨t, ahead, hs, ht⟩ := exists_cons_of_begins (begins_leads h)
  have ht' := begins_leads h'
  rw [hs] at ht'
  refine eq_of_leads (hlex t ?_) ht ht'
  rw [State.tokens, hs]
  exact List.mem_append_right _ List.mem_cons_self

/-! ## Whole parses -/

theorem Mode.rule_inStep (hset : settings.Interchangeable settings' s.tokens) (mode : Mode) :
    InStep (mode.rule settings) (mode.rule settings') s fun _ _ => True := by
  have hstatements {s : State} (hset : settings.Interchangeable settings' s.tokens) :
      InStep (inGrammar settings statements) (inGrammar settings' statements) s fun _ _ => True :=
    inGrammar_inStep hset fun _ _ hn => statements_inStep hn (.self _)
  cases mode with
  | program =>
    rw [Mode.rule, Mode.rule, Parser.program, Parser.program, hset.tracing]
    refine .traced (P := fun _ => True) fun s₁ h₁ _ => ?_
    refine .bind (hstatements (h₁.tokens ▸ hset)) fun body s₂ _ _ => ?_
    refine .bind (.nextIs _) fun b s₃ _ _ => ?_
    split
    · exact .fail _
    · exact .pure trivial
  | expressions =>
    rw [Mode.rule, Mode.rule, Parser.expressions, Parser.expressions, hset.tracing]
    refine .traced (P := fun _ => True) fun s₁ h₁ _ => ?_
    exact .bind (hstatements (h₁.tokens ▸ hset)) fun body _ _ _ => .pure trivial
  | expression =>
    exact .forget (inGrammar_inStep hset fun _ _ hn => hn.expression s (.self s))

/-- From a state, every rule comes to the same result with both settings, and leaves the same
state. -/
structure Indistinguishable (settings settings' : Settings) (s : State) : Prop where
  /-- The rules that a parse can start with. -/
  mode : ∀ mode : Mode, mode.rule settings s = mode.rule settings' s
  statements : inGrammar settings statements s = inGrammar settings' statements s
  intermediate : inGrammar settings (intermediate settings) s =
    inGrammar settings' (intermediate settings') s
  leftBinary : ∀ lhs : Node, inGrammar settings (leftBinary settings · lhs) s =
    inGrammar settings' (leftBinary settings' · lhs) s
  propertyOrValue : inGrammar settings (propertyOrValue settings) s =
    inGrammar settings' (propertyOrValue settings') s
  value : inGrammar settings (value settings) s = inGrammar settings' (value settings') s
  form : ∀ form : ValueForm, inGrammar settings form.parser s = inGrammar settings' form.parser s

theorem indistinguishable (hset : settings.Interchangeable settings' s.tokens) :
    Indistinguishable settings settings' s := by
  have hs := State.Within.self s
  have hs' := hs.succ
  exact {
    mode := fun mode => (mode.rule_inStep hset).eq
    statements := (inGrammar_inStep hset fun _ _ hn => statements_inStep hn hs).eq
    intermediate := (inGrammar_inStep hset fun _ _ hn => intermediate_inStep hset hn hs').eq
    leftBinary := fun lhs =>
      (inGrammar_inStep hset fun _ _ hn => leftBinary_inStep hset hn hs' lhs).eq
    propertyOrValue := (inGrammar_inStep hset fun _ _ hn => propertyOrValue_inStep hset hn hs').eq
    value := (inGrammar_inStep hset fun _ _ hn => value_inStep hset hn hs').eq
    form := fun form => (inGrammar_inStep hset fun _ _ hn => form.parser_inStep hn hs').eq }

/-- **The order in which the forms of a value are tried is irrelevant on sources.**  In every mode
the tokens of a source have the same tree at the same places, or the same error with the same
cursor; so has the source itself; and so it is with every rule from every place in it.  At each
place one form at most makes something or fails. -/
theorem order_of_forms_irrelevant {source : String} {ts : List Token} {forms : List ValueForm}
    (htokens : Token.tokenize source = .ok ts) (hforms : forms.Perm Settings.standard.forms)
    (tracing : Bool) :
    let settings : Settings := ⟨tracing, forms⟩
    let usual : Settings := { Settings.standard with tracing }
    (∀ mode : Mode, parseTokens settings mode ts = parseTokens usual mode ts ∧
      parseSource settings mode source = parseSource usual mode source) ∧
    (∀ s : State, s.tokens = ts → Indistinguishable settings usual s) ∧
    ∀ (s : State) (nested : Nested) (form form' : ValueForm), s.tokens = ts →
      (∀ s', form.parser nested s ≠ .ok none s') → (∀ s', form'.parser nested s ≠ .ok none s') →
        form = form' := by
  intro settings usual
  have hlex := Token.lexical_of_tokenize htokens
  have hset := interchangeable_of_perm hforms tracing hlex
  have hstart : (State.ofTokens ts).tokens = ts := rfl
  have hparse (mode : Mode) : parseTokens settings mode ts = parseTokens usual mode ts :=
    (indistinguishable (s := State.ofTokens ts) hset).mode mode
  refine ⟨fun mode => ⟨hparse mode, ?_⟩, ?_, ?_⟩
  · rw [parseSource, parseSource, htokens]
    simp only [hparse mode]
  · rintro s rfl
    exact indistinguishable hset
  · rintro s nested form form' rfl h h'
    exact ValueForm.eq_of_applies hlex h h'

/-- In a call an argument in parentheses quotes a block, which is not closed: with the forms in the
opposite order the same is expected at the same token as ever. -/
theorem order_of_forms_irrelevant_opposite :
    let forms := Settings.standard.forms.reverse
    let source := "f (:\x7ba; $(x) 1.5)"
    let ts : List Token := [⟨.ident, "f", 0⟩, ⟨.punctuation, "(", 2⟩, ⟨.quote, ":", 3⟩,
      ⟨.punctuation, "\x7b", 4⟩, ⟨.ident, "a", 5⟩, ⟨.punctuation, ";", 6⟩, ⟨.unquote, "$", 8⟩,
      ⟨.punctuation, "(", 9⟩, ⟨.ident, "x", 10⟩, ⟨.punctuation, ")", 11⟩, ⟨.float, "1.5", 13⟩,
      ⟨.punctuation, ")", 16⟩]
    Token.tokenize source = .ok ts ∧ forms.Perm Settings.standard.forms ∧
      (∃ s, parseTokens ⟨false, forms⟩ .program ts =
        .error ⟨"value", "\")\"", some 16, none⟩ s ∧ s.cursor = 11) ∧
      (parseSource ⟨false, forms⟩ .program source).tree =
        .error (.parse ⟨"value", "\")\"", some 16, some ⟨1, 17⟩⟩) ∧
      ∀ s : State, s.tokens = ts →
        Indistinguishable ⟨false, forms⟩ { Settings.standard with tracing := false } s := by
  intro forms source ts
  have htokens : Token.tokenize source = .ok ts := by decide +kernel
  have hforms : forms.Perm Settings.standard.forms := List.reverse_perm _
  obtain ⟨hmode, hrules, -⟩ := order_of_forms_irrelevant htokens hforms false
  obtain ⟨hparse, hsource⟩ := hmode .program
  have hfails : ∃ s, parseTokens { Settings.standard with tracing := false } .program ts =
      .error ⟨"value", "\")\"", some 16, none⟩ s ∧ s.cursor = 11 := by
    have hrun : (match parseTokens { Settings.standard with tracing := false } .program ts with
        | .error e s => decide (e = ⟨"value", "\")\"", some 16, none⟩ ∧ s.cursor = 11)
        | .ok _ _ => false) = true := by
      decide +kernel
    generalize parseTokens _ Mode.program ts = r at hrun ⊢
    cases r with
    | ok node s => cases hrun
    | error e s =>
      obtain ⟨rfl, hcursor⟩ := of_decide_eq_true hrun
      exact ⟨s, rfl, hcursor⟩
  rw [hparse]
  refine ⟨htokens, hforms, hfails, ?_, hrules⟩
  obtain ⟨s, hs, -⟩ := hfails
  rw [hsource, parseSource, htokens]
  simp only [hs]
  refine congrArg (Except.error ∘ SourceError.parse) ?_
  decide +kernel

end Juxta.Parser
