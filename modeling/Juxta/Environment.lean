import Juxta.Name
import Juxta.Value.Basic

/-!
# Environments

An environment is a forest of frames.  A frame binds names to values and may have a parent, an
older frame around it.  Looking up a name walks from a frame outward, and the nearest binding wins;
a definition binds in the very frame that it is made in.

Frames are numbered from zero in the order in which they are made, and every frame remembers a
source text, in which failures are located.

## What is here

* `Bindings` — names with their values; the last definition of a name counts.
* `Frame`, `Environment` — frames and the forest that they form.
* `Environment.get?`, `Environment.define` — looking up and defining names.
* `Builtins` — what a root frame binds from the start.
-/

set_option autoImplicit false
namespace Juxta

/-! ## Bindings -/

/-- Names with their values.  No name occurs twice. -/
structure Bindings where
  entries : List (Name × Value)

namespace Bindings

/-- No names. -/
def empty : Bindings := ⟨[]⟩

/-- Replaces the value of a name, or adds the name at the end. -/
def setEntry (name : Name) (v : Value) : List (Name × Value) → List (Name × Value)
  | [] => [(name, v)]
  | (n, w) :: rest => if n = name then (n, v) :: rest else (n, w) :: setEntry name v rest

/-- Binds a name. -/
def set (b : Bindings) (name : Name) (v : Value) : Bindings :=
  ⟨setEntry name v b.entries⟩

/-- The value of a name. -/
def get? (b : Bindings) (name : Name) : Option Value :=
  b.entries.lookup name

/-- The texts that are bound, in the order of their characters. -/
def names (b : Bindings) : List String :=
  (b.entries.filterMap (·.1.text?)).mergeSort (fun x y => decide (x ≤ y))

@[simp] theorem get?_empty (name : Name) : empty.get? name = none := rfl

theorem lookup_setEntry (entries : List (Name × Value)) (name other : Name) (v : Value) :
    (setEntry name v entries).lookup other =
      if other = name then some v else entries.lookup other := by
  fun_induction setEntry name v entries with
  | case1 =>
    by_cases h : other = name
    · simp [h]
    · rw [List.lookup_cons, beq_eq_false_iff_ne.2 h, if_neg h]
  | case2 w rest =>
    by_cases h : other = name
    · simp [h]
    · rw [List.lookup_cons, List.lookup_cons, beq_eq_false_iff_ne.2 h, if_neg h]
  | case3 n w rest hn ih =>
    by_cases h : other = n
    · subst h
      simp [hn]
    · rw [List.lookup_cons, List.lookup_cons, beq_eq_false_iff_ne.2 h]
      exact ih

/-- The last definition of a name counts, and no other name is affected. -/
@[simp] theorem get?_set (b : Bindings) (name other : Name) (v : Value) :
    (b.set name v).get? other = if other = name then some v else b.get? other :=
  lookup_setEntry b.entries name other v

end Bindings

/-! ## Frames -/

/-- A frame: the number of the frame around it, its names, and the source text of what is evaluated
in it. -/
structure Frame where
  parent : Option Nat
  bindings : Bindings
  source : Option String

/-- A forest of frames, the latest first. -/
structure Environment where
  frames : List Frame

namespace Environment

/-- No frames. -/
def empty : Environment := ⟨[]⟩

/-- The frame with the given number. -/
def frameIn : List Frame → Nat → Option Frame
  | [], _ => none
  | f :: older, i => if i = older.length then some f else frameIn older i

/-- The value of a name at the frame with the given number.  A parent is looked for among the older
frames only, so that the walk comes to an end. -/
def lookupIn (name : Name) : List Frame → Nat → Option Value
  | [], _ => none
  | f :: older, i =>
    if i = older.length then
      match f.bindings.get? name, f.parent with
      | some v, _ => some v
      | none, some p => lookupIn name older p
      | none, none => none
    else
      lookupIn name older i

/-- Changes the frame with the given number. -/
def updateIn (change : Frame → Frame) : List Frame → Nat → List Frame
  | [], _ => []
  | f :: older, i =>
    if i = older.length then change f :: older else f :: updateIn change older i

variable (env : Environment)

/-- The frame with the given number. -/
def frame? (i : Nat) : Option Frame :=
  frameIn env.frames i

/-- The value of a name at a frame: the one bound nearest, going outward. -/
def get? (i : Nat) (name : Name) : Option Value :=
  lookupIn name env.frames i

/-- Whether a name is bound at a frame or around it. -/
def has (i : Nat) (name : Name) : Bool :=
  (env.get? i name).isSome

/-- The source text of a frame. -/
def source? (i : Nat) : Option String :=
  (env.frame? i).bind (·.source)

/-- The texts that are bound in this very frame, in order. -/
def names (i : Nat) : List String :=
  ((env.frame? i).map (·.bindings.names)).getD []

/-- Binds a name in a frame. -/
def define (i : Nat) (name : Name) (v : Value) : Environment :=
  ⟨updateIn (fun f => { f with bindings := f.bindings.set name v }) env.frames i⟩

/-- Gives a frame another source text. -/
def setSource (i : Nat) (source : String) : Environment :=
  ⟨updateIn (fun f => { f with source := some source }) env.frames i⟩

/-- The number of the next frame. -/
def next : Nat :=
  env.frames.length

/-- Adds a frame.  Without a source text of its own it takes over that of its parent. -/
def add (parent : Option Nat) (source : Option String) (bindings : Bindings) : Environment :=
  ⟨{ parent, bindings, source := source <|> parent.bind env.source? } :: env.frames⟩

end Environment

/-! ## Builtins -/

/-- What a root frame binds from the start.  A native function takes precedence over a constant of
the same name. -/
structure Builtins where
  constants : List (String × Value)
  natives : List Native

namespace Builtins

/-- The constants and functions of the language. -/
def standard : Builtins where
  constants := [("true", .bool true), ("false", .bool false)]
  natives := [⟨"println", none, .printLine⟩, ⟨"exit", none, .quit⟩]

/-- Provides one more native function; it replaces one of the same name. -/
def register (b : Builtins) (f : Native) : Builtins :=
  { b with natives := b.natives.filter (·.name ≠ f.name) ++ [f] }

/-- The bindings of a fresh root frame. -/
def bindings (b : Builtins) : Bindings :=
  let constants := b.constants.foldl (fun bs (name, v) => bs.set name v) Bindings.empty
  b.natives.foldl (fun bs f => bs.set f.name (.native f)) constants

/-- An environment with just a root frame, which has the number zero. -/
def environment (b : Builtins) (source : Option String) : Environment :=
  Environment.empty.add none source b.bindings

end Builtins
end Juxta
