import Juxta.Proofs.Evaluation.FailingPath
import Juxta.Proofs.Parser.Modes

/-!
# Failures that have their place

A node around a failing one gives the failure a place only if it has none.  An expression of a
source knows where it stands, so that its failures have their place when they leave it, and it makes
no difference through which other nodes they pass on their way out.

## What is here

* `Eval.Agree P x y` — two computations that do the same on the machines that satisfy `P`, with
  rules for putting them together.
* `Eval.Settles frame env x` — whatever the computation fails with has its place already, as far as
  it can have one, on machines with the sources of `env`.
* `Eval.Settles.agree_locating` — a node around such a computation changes nothing.
* `Node.settles_eval` — the evaluation of an expression of the source is such a computation.
-/

set_option autoImplicit false
namespace Juxta

/-! ## Computations that do the same -/

namespace Eval

variable {α β : Type} {P : Machine → Prop} {x y z : Eval α}

/-- The computations do the same, on all machines that satisfy `P`. -/
def Agree (P : Machine → Prop) (x y : Eval α) : Prop :=
  ∀ m, P m → x m = y m

namespace Agree

theorem refl (P : Machine → Prop) (x : Eval α) : Agree P x x :=
  fun _ _ => rfl

theorem symm (h : Agree P x y) : Agree P y x :=
  fun m hm => (h m hm).symm

theorem trans (h : Agree P x y) (h' : Agree P y z) : Agree P x z :=
  fun m hm => (h m hm).trans (h' m hm)

theorem bind {Q : α → Prop} {I : Interrupt → Prop} {f g : α → Eval β} (hkeeps : Keeps P Q I y)
    (h : Agree P x y) (hf : ∀ a, Agree P (f a) (g a)) : Agree P (x >>= f) (y >>= g) := by
  intro m hm
  have hxy := h m hm
  cases hy : y m with
  | ok a m' =>
    rw [bind_of_ok (hxy.trans hy), bind_of_ok hy]
    exact hf a m' (hkeeps.of_ok hm hy).1
  | error i m' => rw [bind_of_error (hxy.trans hy), bind_of_error hy]

theorem locating (frame : Nat) (start : Option Int) (h : Agree P x y) :
    Agree P (Eval.locating frame start x) (Eval.locating frame start y) := by
  intro m hm
  rw [Eval.locating, Eval.locating, h m hm]

/-- An operator does the same with operands that do the same. -/
theorem evalBinary {frame : Nat} {symbol : String} {target target' : Node}
    {left left' right right' : Eval Value} (hleft : Leaves P left)
    (hright : Leaves P right)
    (ht : symbol = ":=" → target'.assignmentTarget = target.assignmentTarget)
    (hl : Agree P left' left) (hr : Agree P right' right) :
    Agree P (Node.evalBinary frame symbol target' left' right')
      (Node.evalBinary frame symbol target left right) := by
  rw [Node.evalBinary, Node.evalBinary]
  split
  · next hassign =>
    rw [ht hassign]
    exact .bind (Leaves.assignmentTarget target) (.refl P _) fun p =>
      .bind hright hr fun v => .refl P _
  · split
    · refine .bind hleft hl fun v => ?_
      split
      · exact hr
      · exact .refl P _
    · split
      · refine .bind hleft hl fun v => ?_
        split
        · exact .refl P _
        · exact hr
      · exact .bind hleft hl fun l => .bind hright hr fun r => .refl P _

/-- Statements in a row do the same as others. -/
theorem statements {frame : Nat} {k : Node.Kind} {ns ns' : List Node}
    (hk : k = .program ∨ k = .expressions) (start : Option Int)
    (hleaves : Leaves P (Node.evalAll frame ns))
    (h : Agree P (Node.evalAll frame ns') (Node.evalAll frame ns)) :
    Agree P ((Node.branch k ns' start).eval frame) ((Node.branch k ns start).eval frame) := by
  rcases hk with rfl | rfl
  all_goals
    rw [Node.eval, Node.eval]
    exact .locating frame start (.bind hleaves h fun _ => .refl P _)

end Agree
end Eval

/-! ## Failures that no node around changes -/

/-- Such a failure keeps its place, or stays without one, in all nodes around. -/
def Failure.IsSettled (source : Option String) (g : Failure) : Prop :=
  ∀ start, g.locate source start = g

/-- What is without a source cannot be placed. -/
theorem Failure.isSettled_of_source (g : Failure) : g.IsSettled none := by
  intro start
  rw [locate.eq_def]
  split
  · contradiction
  · rfl

/-- A failure is settled once it has a line. -/
theorem Failure.isSettled_of_line {g : Failure} {source : Option String} (h : g.place.line ≠ none) :
    g.IsSettled source := by
  intro start
  rw [locate.eq_def]
  split
  · contradiction
  · rfl

/-- The node starts in the source, if there is one. -/
def Node.StandsIn (source : Option String) (n : Node) : Prop :=
  ∀ text ∈ source, ∃ offset ∈ n.start, (Position.ofOffset? text offset).isSome

/-- A node that starts at one of the first offsets of a source stands in it. -/
theorem Node.StartsIn.standsIn {n : Node} {length : Nat} {source : Option String}
    (h : n.StartsIn length) (hlength : ∀ text ∈ source, length ≤ text.length) :
    n.StandsIn source := by
  intro text htext
  obtain ⟨offset, hstart, hle⟩ := h.start
  refine ⟨offset, hstart, ?_⟩
  rw [Position.ofOffset?_of_le (hle.trans (hlength text htext))]
  rfl

/-- A failure is settled once it comes out of a node that stands in the source. -/
theorem Node.StandsIn.isSettled_locate {n : Node} {source : Option String} (h : n.StandsIn source)
    (g : Failure) : (g.locate source n.start).IsSettled source := by
  cases source with
  | none => exact Failure.isSettled_of_source _
  | some text =>
    obtain ⟨offset, hstart, hsome⟩ := h text rfl
    obtain ⟨q, hq⟩ := Option.isSome_iff_exists.1 hsome
    refine Failure.isSettled_of_line ?_
    cases hline : g.place.line with
    | some line =>
      have hself : g.IsSettled (some text) := Failure.isSettled_of_line (by simp [hline])
      simp [hself n.start, hline]
    | none => simp [Failure.locate, hline, Option.mem_def.1 hstart, hq, Place.ofPosition]

/-- An interrupt that no node around changes. -/
def Interrupt.IsSettled (source : Option String) (i : Interrupt) : Prop :=
  ∀ g, i = .failure g → g.IsSettled source

namespace Eval

variable {α β : Type} {frame : Nat} {env : Environment} {x : Eval α}

/-- On machines with the sources of the environment, no node around changes what the computation is
interrupted by. -/
abbrev Settles (frame : Nat) (env : Environment) (x : Eval α) : Prop :=
  x.Keeps (Machine.HasSourcesOf env) (fun _ => True) (Interrupt.IsSettled (env.source? frame))

/-- A node around changes nothing. -/
theorem Settles.agree_locating (h : Settles frame env x) (start : Option Int) :
    Agree (Machine.HasSourcesOf env) (Eval.locating frame start x) x := by
  intro m hm
  rw [Eval.locating]
  cases hx : x m with
  | ok a m' => rfl
  | error i m' =>
    obtain ⟨hm', hi⟩ := h.of_error hm hx
    cases i with
    | failure g =>
      dsimp only
      rw [hm' frame, hi g rfl start]
    | exit code => rfl
    | defect d => rfl

end Eval

/-- What comes out of a node that stands in the source is settled. -/
theorem Node.settles_eval {frame : Nat} {env : Environment} {n : Node}
    (h : n.StandsIn (env.source? frame)) : Eval.Settles frame env (n.eval frame) := by
  intro m hm
  cases hres : n.eval frame m with
  | ok a m' => exact (n.hasSourcesOf_eval frame env).of_ok hm hres
  | error i m' =>
    obtain ⟨hm', -⟩ := (n.hasSourcesOf_eval frame env).of_error hm hres
    refine ⟨hm', ?_⟩
    rintro g rfl
    obtain ⟨g₀, rfl, -⟩ := Node.eval_eq_failure hres
    rw [hm' frame]
    exact h.isSettled_locate g₀

end Juxta
