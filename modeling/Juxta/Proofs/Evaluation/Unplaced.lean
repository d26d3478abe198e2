import Juxta.Evaluation

/-!
# Values without places

A quoted tree remembers where its nodes start, and a frame remembers the text that was evaluated in
it last.  Neither can be seen from within the language: the text of a quoted tree does not show it,
no operator looks at it, and no function does.  Two environments are the same for the language if
they are the same without it.

## What is here

* `Node.unplaced`, `Value.unplaced`, `Cause.unplaced`, `Environment.unplaced` — everything but the
  places.  `Node.compact_unplaced`, `Node.outline_unplaced`, `Value.text_unplaced` and
  `Cause.message_unplaced` say that no text shows them.
* `Operator.apply_unplaced`, `applyOperator_unplaced` — operators do not look at them.
* `Environment.get?_unplaced`, `Environment.define_unplaced`, `Environment.setSource_unplaced` —
  environments without places are environments.
-/

set_option autoImplicit false
namespace Juxta

/-! ## Trees and values -/

namespace Node

mutual

/-- The same tree, without where anything in it starts. -/
def unplaced : Node → Node
  | leaf k p _ => leaf k p none
  | branch k cs _ => branch k (unplacedAll cs) none

/-- The same trees, without where anything in them starts. -/
def unplacedAll : List Node → List Node
  | [] => []
  | n :: ns => unplaced n :: unplacedAll ns

end

mutual

/-- The text of a tree does not show where its nodes start. -/
theorem compact_unplaced : ∀ n : Node, n.unplaced.compact = n.compact
  | leaf _ _ _ => rfl
  | branch k cs _ => by rw [unplaced, compact, compact, compactAll_unplacedAll cs]

theorem compactAll_unplacedAll : ∀ ns : List Node, compactAll (unplacedAll ns) = compactAll ns
  | [] => rfl
  | n :: ns => by
    rw [unplacedAll, compactAll, compactAll, compact_unplaced n, compactAll_unplacedAll ns]

end

mutual

theorem outlineLines_unplaced (depth : Int) :
    ∀ n : Node, n.unplaced.outlineLines depth = n.outlineLines depth
  | leaf _ _ _ => rfl
  | branch k cs _ => by
    rw [unplaced, outlineLines, outlineLines, outlineLinesOfAll_unplacedAll (depth + 1) cs]

theorem outlineLinesOfAll_unplacedAll (depth : Int) : ∀ ns : List Node,
    outlineLinesOfAll depth (unplacedAll ns) = outlineLinesOfAll depth ns
  | [] => rfl
  | n :: ns => by
    rw [unplacedAll, outlineLinesOfAll, outlineLinesOfAll, outlineLines_unplaced depth n,
      outlineLinesOfAll_unplacedAll depth ns]

end

/-- The outline of a tree does not show where its nodes start. -/
theorem outline_unplaced (depth : Int) (n : Node) : n.unplaced.outline depth = n.outline depth := by
  rw [outline, outline, outlineLines_unplaced]

end Node

namespace Value

/-- The same value, without where the nodes of a quoted tree start. -/
def unplaced : Value → Value
  | quoted n => quoted n.unplaced
  | v => v

@[simp] theorem type_unplaced (v : Value) : v.unplaced.type = v.type := by
  cases v <;> rfl

@[simp] theorem text_unplaced (v : Value) : v.unplaced.text = v.text := by
  cases v with
  | quoted n => exact n.compact_unplaced
  | _ => rfl

@[simp] theorem echo_unplaced (v : Value) : v.unplaced.echo = v.echo := by
  cases v with
  | quoted n => exact n.compact_unplaced
  | _ => rfl

@[simp] theorem isTruthy_unplaced (v : Value) : v.unplaced.isTruthy = v.isTruthy := by
  cases v <;> rfl

@[simp] theorem literal?_unplaced (v : Value) : v.unplaced.literal? = v.literal? := by
  cases v <;> rfl

/-- The last value without its places is the last of the values without theirs. -/
theorem unplaced_getLast (vs : List Value) :
    (vs.getLast?.getD .nil).unplaced = (vs.map unplaced).getLast?.getD .nil := by
  rw [List.getLast?_map]
  cases vs.getLast? with
  | none => rfl
  | some v => rfl

end Value

/-- The same cause, without the places in its value. -/
def Cause.unplaced : Cause → Cause
  | notCallable v => notCallable v.unplaced
  | cause => cause

@[simp] theorem Cause.message_unplaced (c : Cause) : c.unplaced.message = c.message := by
  cases c with
  | notCallable v => exact congrArg ("not a function: " ++ ·) v.echo_unplaced
  | _ => rfl

/-! ## Operators -/

/-- Operators do not apply to quoted trees, so that places do not matter to them. -/
theorem Operator.apply_unplaced (op : Operator) (l r : Value) :
    op.apply l.unplaced r.unplaced = op.apply l r := by
  cases l with
  | quoted => cases r <;> rfl
  | _ =>
    cases r with
    | quoted => rfl
    | _ => rfl

theorem applyOperator_unplaced (symbol : String) (l r : Value) :
    applyOperator symbol l.unplaced r.unplaced = applyOperator symbol l r := by
  rw [applyOperator, applyOperator]
  split
  · exact Operator.apply_unplaced _ l r
  · rw [Value.type_unplaced, Value.type_unplaced]

/-! ## Environments -/

/-- The same bindings, of values without places. -/
def Bindings.unplaced (b : Bindings) : Bindings :=
  ⟨b.entries.map fun (name, v) => (name, v.unplaced)⟩

theorem Bindings.get?_unplaced (b : Bindings) (name : Name) :
    b.unplaced.get? name = (b.get? name).map Value.unplaced := by
  obtain ⟨entries⟩ := b
  rw [get?, get?, unplaced]
  induction entries with
  | nil => rfl
  | cons entry entries ih =>
    obtain ⟨other, v⟩ := entry
    rw [List.map_cons, List.lookup_cons, List.lookup_cons]
    cases name == other with
    | true => rfl
    | false => exact ih

theorem Bindings.set_unplaced (b : Bindings) (name : Name) (v : Value) :
    (b.set name v).unplaced = b.unplaced.set name v.unplaced := by
  obtain ⟨entries⟩ := b
  rw [set, set, unplaced, unplaced, Bindings.mk.injEq]
  induction entries with
  | nil => rfl
  | cons entry entries ih =>
    obtain ⟨other, w⟩ := entry
    rw [setEntry, List.map_cons, setEntry]
    by_cases hother : other = name
    · rw [if_pos hother, if_pos hother]
      rfl
    · rw [if_neg hother, if_neg hother, List.map_cons, ih]

/-- The same frame, without places and without its source. -/
def Frame.unplaced (f : Frame) : Frame :=
  { f with bindings := f.bindings.unplaced, source := none }

namespace Environment

/-- The same environment, without places and sources. -/
def unplaced (env : Environment) : Environment :=
  ⟨env.frames.map Frame.unplaced⟩

variable (env : Environment) (i : Nat)

/-- A name has the same value, without its places. -/
theorem get?_unplaced (name : Name) :
    env.unplaced.get? i name = (env.get? i name).map Value.unplaced := by
  obtain ⟨frames⟩ := env
  rw [get?, get?, unplaced]
  induction frames generalizing i with
  | nil => rfl
  | cons f older ih =>
    rw [List.map_cons, lookupIn, lookupIn, List.length_map]
    by_cases hi : i = older.length
    · rw [if_pos hi, if_pos hi]
      cases hget : f.bindings.get? name with
      | some v =>
        have hget' : f.unplaced.bindings.get? name = some v.unplaced := by
          rw [Frame.unplaced, Bindings.get?_unplaced, hget]
          rfl
        simp only [hget']
        rfl
      | none =>
        have hget' : f.unplaced.bindings.get? name = none := by
          rw [Frame.unplaced, Bindings.get?_unplaced, hget]
          rfl
        have hparent : f.unplaced.parent = f.parent := rfl
        simp only [hget', hparent]
        cases f.parent with
        | some p => exact ih p
        | none => rfl
    · rw [if_neg hi, if_neg hi]
      exact ih i

theorem map_unplaced_updateIn {change change' : Frame → Frame}
    (h : ∀ f, (change f).unplaced = change' f.unplaced) (frames : List Frame) (i : Nat) :
    (updateIn change frames i).map Frame.unplaced =
      updateIn change' (frames.map Frame.unplaced) i := by
  induction frames with
  | nil => rfl
  | cons f older ih =>
    rw [updateIn, List.map_cons, updateIn, List.length_map]
    by_cases hi : i = older.length
    · rw [if_pos hi, if_pos hi, List.map_cons, h]
    · rw [if_neg hi, if_neg hi, List.map_cons, ih]

theorem define_unplaced (name : Name) (v : Value) :
    (env.define i name v).unplaced = env.unplaced.define i name v.unplaced := by
  rw [define, define, unplaced, unplaced, Environment.mk.injEq]
  refine map_unplaced_updateIn (fun f => ?_) env.frames i
  rw [Frame.unplaced, Frame.unplaced, Bindings.set_unplaced]

theorem length_updateIn (change : Frame → Frame) (frames : List Frame) (i : Nat) :
    (updateIn change frames i).length = frames.length := by
  induction frames with
  | nil => rfl
  | cons f older ih =>
    rw [updateIn]
    split
    · rfl
    · rw [List.length_cons, List.length_cons, ih]

theorem updateIn_self (frames : List Frame) (i : Nat) :
    updateIn (fun f => f) frames i = frames := by
  induction frames with
  | nil => rfl
  | cons f older ih => rw [updateIn, ih, ite_self]

/-- A frame without its source does not change with it. -/
theorem setSource_unplaced (source : String) :
    (env.setSource i source).unplaced = env.unplaced := by
  rw [setSource, unplaced, unplaced, Environment.mk.injEq]
  refine (map_unplaced_updateIn ?_ env.frames i).trans (updateIn_self _ i)
  exact fun _ => rfl

/-! ## Sources -/

/-- Where a change keeps the sources, every frame has the same source as before. -/
theorem source?_updateIn {change : Frame → Frame} (h : ∀ f, (change f).source = f.source)
    (frames : List Frame) (j : Nat) :
    source? ⟨updateIn change frames i⟩ j = source? ⟨frames⟩ j := by
  rw [source?, source?, frame?, frame?]
  dsimp only
  induction frames with
  | nil => rfl
  | cons f older ih =>
    have hlength : (updateIn change older i).length = older.length := length_updateIn change older i
    rw [updateIn]
    by_cases hi : i = older.length
    · rw [if_pos hi, frameIn, frameIn]
      split
      · exact h f
      · rfl
    · rw [if_neg hi, frameIn, frameIn, hlength]
      split
      · rfl
      · exact ih

/-- A definition changes no source. -/
@[simp] theorem source?_define (name : Name) (v : Value) (j : Nat) :
    (env.define i name v).source? j = env.source? j := by
  refine source?_updateIn i ?_ env.frames j
  exact fun _ => rfl

/-- A frame that there is gets the source that it is given. -/
theorem source?_setSource (source : String) (hi : i < env.next) :
    (env.setSource i source).source? i = some source := by
  obtain ⟨frames⟩ := env
  rw [setSource, source?, frame?]
  rw [next] at hi
  dsimp only at hi ⊢
  induction frames with
  | nil => exact absurd hi (Nat.not_lt_zero i)
  | cons f older ih =>
    rw [updateIn]
    by_cases heq : i = older.length
    · rw [if_pos heq, frameIn, if_pos heq]
      rfl
    · rw [if_neg heq, frameIn, length_updateIn, if_neg heq]
      rw [List.length_cons] at hi
      exact ih (by omega)

/-- A frame with a source is one that there is. -/
theorem lt_next_of_source? {source : String} (h : env.source? i = some source) : i < env.next := by
  obtain ⟨frames⟩ := env
  rw [source?, frame?] at h
  rw [next]
  dsimp only at h ⊢
  induction frames with
  | nil => cases h
  | cons f older ih =>
    rw [frameIn] at h
    rw [List.length_cons]
    by_cases heq : i = older.length
    · omega
    · rw [if_neg heq] at h
      have := ih h
      omega

end Environment
end Juxta
