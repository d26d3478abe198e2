import Juxta.Proofs.Parser.Reading
import Mathlib.Tactic.NthRewrite

/-!
# What a parser comes to

A small program logic for parsers.  `Meets p s Q E` says what comes of running `p` from the state
`s`: it moves the cursor over the same tokens and either makes a result that satisfies `Q`, or it
fails with the error that belongs to the place where it stopped and satisfies `E`.  The trace is
not mentioned: nothing that a parser does depends on it.

## What is here

* `Parser.Meets`, with one rule for each way of putting parsers together.
* `Meets.many` — the rule for repetition.  A loop whose items consume something never runs into the
  limit that makes it end.
-/

set_option autoImplicit false
namespace Juxta.Parser

/-- All tokens of a parse, those before the cursor and those ahead. -/
def State.tokens (s : State) : List Token :=
  s.seen.reverse ++ s.ahead

variable {α β : Type}

/-- A run of `p` from `s` stays within the same tokens.  It makes a result that satisfies `Q`
together with the tokens that are then ahead, or it fails at the cursor, and what it expected there
satisfies `E` together with the tokens that are then ahead. -/
def Meets (p : Parser α) (s : State) (Q : α → List Token → Prop) (E : String → List Token → Prop) :
    Prop :=
  match p s with
  | .ok a s' => s'.tokens = s.tokens ∧ Q a s'.ahead
  | .error e s' => s'.tokens = s.tokens ∧ ∃ x, e = s'.error x ∧ E x s'.ahead

namespace Meets

variable {p : Parser α} {s : State} {Q R : α → List Token → Prop} {E F : String → List Token → Prop}

theorem mono (h : Meets p s Q E) (hQ : ∀ a rest, Q a rest → R a rest)
    (hE : ∀ x rest, E x rest → F x rest) : Meets p s R F := by
  rw [Meets] at h ⊢
  split at h
  · exact ⟨h.1, hQ _ _ h.2⟩
  · obtain ⟨ht, x, he, hx⟩ := h
    exact ⟨ht, x, he, hE _ _ hx⟩

theorem pure {a : α} (h : Q a s.ahead) : Meets (Pure.pure a) s Q E :=
  ⟨rfl, h⟩

theorem bind {f : α → Parser β} {R : β → List Token → Prop} (h : Meets p s Q E)
    (hf : ∀ a s', Q a s'.ahead → Meets (f a) s' R E) : Meets (p >>= f) s R E := by
  rw [Meets] at h ⊢
  rw [show (p >>= f) s = EStateM.bind p f s from rfl, EStateM.bind]
  cases hp : p s with
  | ok a s' =>
    rw [hp] at h
    have h' := hf a s' h.2
    rw [Meets] at h'
    dsimp only
    cases hfa : f a s' with
    | ok b s'' => rw [hfa] at h'; exact ⟨h'.1.trans h.1, h'.2⟩
    | error e s'' => rw [hfa] at h'; exact ⟨h'.1.trans h.1, h'.2⟩
  | error e s' => rw [hp] at h; exact h

theorem fail {expected : String} (h : E expected s.ahead) :
    Meets (Parser.fail expected : Parser α) s Q E :=
  ⟨rfl, expected, rfl, h⟩

/-- Recording the rules changes nothing. -/
theorem traced {tracing : Bool} {rule : Rule} (h : ∀ s', s'.ahead = s.ahead → Meets p s' Q E) :
    Meets (Parser.traced tracing rule p) s Q E := by
  cases tracing with
  | false => exact h s rfl
  | true =>
    have h' := h (s.enter rule) rfl
    rw [Meets] at h' ⊢
    rw [Parser.traced, if_pos rfl]
    cases hp : p (s.enter rule) with
    | ok a s' => rw [hp] at h'; exact h'
    | error e s' => rw [hp] at h'; exact h'

/-! ## One token -/

theorem nextIs {q : Token → Bool} {Q : Bool → List Token → Prop}
    (h : Q (begins q s.ahead) s.ahead) : Meets (Parser.nextIs q) s Q E := by
  have hb : s.current.any q = begins q s.ahead := by
    rw [State.current]
    cases s.ahead <;> rfl
  refine ⟨rfl, ?_⟩
  rw [hb]
  exact h

theorem takeIf {q : Token → Bool} {Q : Option Token → List Token → Prop}
    (hnone : begins q s.ahead = false → Q none s.ahead)
    (hsome : ∀ t ts, s.ahead = t :: ts → q t = true → Q (some t) ts) :
    Meets (Parser.takeIf q) s Q E := by
  rw [Meets, Parser.takeIf, State.advance?]
  cases hs : s.ahead with
  | nil => exact ⟨rfl, by rw [hs] at hnone ⊢; exact hnone rfl⟩
  | cons t ts =>
    by_cases ht : q t = true
    · simp only [ht, if_true]
      exact ⟨by simp [State.tokens, hs], hsome t ts hs ht⟩
    · simp only [ht]
      rw [hs] at hnone
      exact ⟨rfl, by rw [hs]; exact hnone (by simpa using ht)⟩

theorem expect {q : Token → Bool} {expected : String} {Q : Token → List Token → Prop}
    (hnone : begins q s.ahead = false → E expected s.ahead)
    (hsome : ∀ t ts, s.ahead = t :: ts → q t = true → Q t ts) :
    Meets (Parser.expect q expected) s Q E := by
  refine bind (takeIf (Q := fun o rest => o.elim (E expected rest) (Q · rest)) hnone hsome) ?_
  intro o s' h
  cases o with
  | none => exact fail h
  | some t => exact pure h

theorem skipText {text : String} {Q : Unit → List Token → Prop}
    (hnone : begins (Token.hasText text) s.ahead = false → Q () s.ahead)
    (hsome : ∀ t ts, s.ahead = t :: ts → t.text = text → Q () ts) :
    Meets (Parser.skipText text) s Q E := by
  refine bind (takeIf (Q := fun _ rest => Q () rest) hnone ?_) ?_
  · intro t ts hs ht
    exact hsome t ts hs (by simpa using ht)
  · intro _ s' h
    exact pure h

theorem skipNewlines {Q : Unit → List Token → Prop}
    (h : Q () (s.ahead.dropWhile (Token.hasKind .newline))) :
    Meets Parser.skipNewlines s Q E := by
  have hsplit := List.takeWhile_append_dropWhile (p := Token.hasKind .newline) (l := s.ahead)
  have hdrop : s.ahead.drop (s.ahead.takeWhile (Token.hasKind .newline)).length
      = s.ahead.dropWhile (Token.hasKind .newline) := by
    nth_rewrite 2 [← hsplit]
    exact List.drop_left
  have hnewlines : s.ahead.takeWhile (fun t => decide (t.kind = .newline))
      = s.ahead.takeWhile (Token.hasKind .newline) := rfl
  rw [Meets, Parser.skipNewlines]
  simp only [hnewlines, hdrop]
  exact ⟨by simp [State.tokens, hsplit], h⟩

/-! ## Repetition -/

/-- The rule for repetition.  `L` and `E` say what a loop comes to, by the tokens in front of which
it starts; every item has to leave fewer tokens ahead. -/
theorem many {more : Token → Bool} {item : Parser α}
    {L : List Token → List α → List Token → Prop} {E : List Token → String → List Token → Prop}
    (hstop : ∀ input, begins more input = false → L input [] input)
    (hitem : ∀ s' : State, s'.ahead.length ≤ s.ahead.length → begins more s'.ahead = true →
      Meets item s'
        (fun a mid => mid.length < s'.ahead.length ∧
          (∀ as rest, L mid as rest → L s'.ahead (a :: as) rest) ∧
          (∀ x rest, E mid x rest → E s'.ahead x rest))
        (E s'.ahead)) :
    Meets (Parser.many more item) s (L s.ahead) (E s.ahead) := by
  suffices h : ∀ limit (s' : State), s'.ahead.length ≤ limit → s'.ahead.length ≤ s.ahead.length →
      Meets (manyUpTo more item limit) s' (L s'.ahead) (E s'.ahead) from
    h s.ahead.length s (Nat.le_refl _) (Nat.le_refl _)
  intro limit
  induction limit with
  | zero =>
    intro s₀ hlimit _
    have hnil : s₀.ahead = [] := List.length_eq_zero_iff.1 (Nat.le_zero.1 hlimit)
    exact pure (hstop s₀.ahead (by rw [hnil]; rfl))
  | succ limit ih =>
    intro s₀ hlimit hbound
    refine bind (nextIs (Q := fun b rest => b = begins more s₀.ahead ∧ rest = s₀.ahead)
      ⟨rfl, rfl⟩) ?_
    rintro b s₁ ⟨rfl, hs₁⟩
    by_cases hmore : begins more s₀.ahead = true
    · rw [if_pos hmore]
      have hi := hitem s₁ (hs₁ ▸ hbound) (hs₁ ▸ hmore)
      rw [hs₁] at hi
      refine bind hi ?_
      rintro a s₂ ⟨hlt, hL, hE⟩
      refine bind (mono (ih s₂ (by omega) (by omega)) hL hE) ?_
      intro as s₃ h
      exact pure h
    · rw [if_neg hmore]
      refine pure ?_
      rw [hs₁]
      exact hstop s₀.ahead (by simpa using hmore)

end Meets
end Juxta.Parser
