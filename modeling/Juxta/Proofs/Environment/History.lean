import Juxta.Proofs.Evaluation.Effects
import Mathlib.Logic.ExistsUnique

/-!
# Looking up a name after any history

Frames are made one after the other, each with a parent among the older ones or with none, and in
between names are defined in them, in any order.  A root frame has some names from the start; that
is no more than to define them when it is made.  A frame sees what is defined later in the frames
around it, as long as there is no definition nearer to it.

What a name means at a frame depends only on the last definitions of that name in the frames on the
way outward: the nearest one counts.

## What is here

* `History n` — how an environment with `n` frames came to be; `History.environment` is that
  environment.
* `History.defined?` — the last definition of a name in a frame.
* `History.Chain` — the way from a frame outward; there is just one.
* `History.Reaches` — a frame is on that way with no definition nearer.
* `History.Chain.get?_eq_findSome?` — a name has the value of its first definition on the way
  outward.
* `lookup_finds_nearest` — lookups after any history, and the reach of a definition.
-/

set_option autoImplicit false
namespace Juxta

/-! ## Parents are older -/

namespace Environment

variable {env : Environment} {i : Nat} {name : Name}

/-- The number of the frame around a frame. -/
def parent? (env : Environment) (i : Nat) : Option Nat :=
  (env.frame? i).bind (·.parent)

theorem frame?_cons (f : Frame) (older : List Frame) (i : Nat) :
    frame? ⟨f :: older⟩ i = if i = older.length then some f else frame? ⟨older⟩ i := rfl

/-- There are frames of all numbers below the next one. -/
theorem exists_frame?_iff : (∃ f, env.frame? i = some f) ↔ i < env.next := by
  obtain ⟨frames⟩ := env
  rw [next]
  induction frames with
  | nil => simp [frame?, frameIn]
  | cons g older ih =>
    rw [frame?_cons, List.length_cons]
    by_cases hi : i = older.length
    · simp [hi]
    · rw [if_neg hi, ih]
      dsimp only
      omega

theorem get?_cons_of_lt (f : Frame) {older : List Frame} (hi : i < older.length) :
    get? ⟨f :: older⟩ i name = get? ⟨older⟩ i name := by
  rw [get?, lookupIn, if_neg (by omega)]
  rfl

/-- **One step of a lookup**: the value in the frame itself, or else the one at its parent. -/
theorem get?_eq_or (h : ∀ j p, env.parent? j = some p → p < j) (i : Nat) (name : Name) :
    env.get? i name = (env.own? i name).or ((env.parent? i).bind (env.get? · name)) := by
  obtain ⟨frames⟩ := env
  induction frames with
  | nil => rfl
  | cons f older ih =>
    by_cases hi : i = older.length
    · have hframe : frame? ⟨f :: older⟩ i = some f := by rw [frame?_cons, if_pos hi]
      have hget : get? ⟨f :: older⟩ i name =
          (f.bindings.get? name).or (f.parent.bind (get? ⟨older⟩ · name)) := by
        rw [get?, lookupIn, if_pos hi]
        cases f.bindings.get? name <;> cases f.parent <;> rfl
      rw [hget, own?, parent?, hframe, Option.bind_some, Option.bind_some]
      congr 1
      refine Option.bind_congr fun p hp => (get?_cons_of_lt f ?_).symm
      have hlt := h i p (by rw [parent?, hframe, Option.bind_some, hp])
      omega
    · -- an older frame, whose parent is older still: the latest one makes no difference
      have hframe : frame? ⟨f :: older⟩ i = frame? ⟨older⟩ i := by rw [frame?_cons, if_neg hi]
      have hget : get? ⟨f :: older⟩ i name = get? ⟨older⟩ i name := by
        rw [get?, lookupIn, if_neg hi]
        rfl
      have holder : ∀ j p, parent? ⟨older⟩ j = some p → p < j := by
        intro j p hp
        obtain ⟨g, hg, -⟩ := Option.bind_eq_some_iff.1 hp
        have hlt : j < older.length := exists_frame?_iff.1 ⟨g, hg⟩
        refine h j p ?_
        rwa [parent?, frame?_cons, if_neg (by omega)]
      rw [hget, ih holder, own?, own?, parent?, parent?, hframe]
      congr 1
      refine Option.bind_congr fun p hp => (get?_cons_of_lt f ?_).symm
      obtain ⟨g, hg, -⟩ := Option.bind_eq_some_iff.1 hp
      have hlt : i < older.length := exists_frame?_iff.1 ⟨g, hg⟩
      have hp := holder i p hp
      omega

end Environment

/-! ## Histories -/

/-- How an environment with so many frames came to be. -/
inductive History : Nat → Type where
  | empty : History 0
  /-- A frame is made, with a parent among the older ones or with none, and some names that are
  defined in it from the start. -/
  | create {n : Nat} (h : History n) (parent : Option (Fin n)) (source : Option String)
      (bindings : Bindings) : History (n + 1)
  /-- A name is defined in a frame. -/
  | define {n : Nat} (h : History n) (i : Fin n) (name : Name) (v : Value) : History n

namespace History

variable {n : Nat}

/-- The environment after a history. -/
def environment : {n : Nat} → History n → Environment
  | _, empty => .empty
  | _, create h parent source bindings =>
    h.environment.add (parent.map (·.val)) source bindings
  | _, define h i name v => h.environment.define i name v

/-- The value in the last definition of a name in a frame, if there is any. -/
def defined? : {n : Nat} → History n → Nat → Name → Option Value
  | _, empty, _, _ => none
  | _, create (n := n) h _ _ bindings, j, other =>
    if j = n then bindings.get? other else h.defined? j other
  | _, define h i name v, j, other =>
    if j = i ∧ other = name then some v else h.defined? j other

/-- The parent with which a frame was made. -/
def parent? : {n : Nat} → History n → Nat → Option Nat
  | _, empty, _ => none
  | _, create (n := n) h parent _ _, j => if j = n then parent.map (·.val) else h.parent? j
  | _, define h _ _ _, j => h.parent? j

theorem next_environment (h : History n) : h.environment.next = n := by
  induction h with
  | empty => rfl
  | create h parent source bindings ih => exact congrArg (· + 1) ih
  | define h i name v ih => exact (Environment.length_updateIn _ _ _).trans ih

theorem frame?_create (h : History n) (parent : Option (Fin n)) (source : Option String)
    (bindings : Bindings) (j : Nat) :
    (h.create parent source bindings).environment.frame? j =
      if j = n then
        some ⟨parent.map (·.val), bindings,
          source <|> (parent.map (·.val)).bind h.environment.source?⟩
      else h.environment.frame? j := by
  have hnext : h.environment.frames.length = n := h.next_environment
  rw [environment, Environment.add, Environment.frame?_cons, hnext]

/-- **The bindings of a frame are its last definitions.** -/
theorem own?_environment (h : History n) (j : Nat) (name : Name) :
    h.environment.own? j name = h.defined? j name := by
  induction h with
  | empty => rfl
  | create h parent source bindings ih =>
    rw [defined?, Environment.own?, frame?_create]
    split
    · rfl
    · exact ih
  | define h i other v ih =>
    have hi : ↑i < h.environment.next := by rw [h.next_environment]; exact i.isLt
    obtain ⟨f, hf⟩ := Environment.exists_frame?_iff.2 hi
    rw [defined?, environment, Environment.own?, Environment.frame?_define, ← ih,
      Environment.own?]
    by_cases hj : j = i
    · simp [hj, hf]
    · simp [hj]

/-- **The parent of a frame is the one with which it was made.** -/
theorem parent?_environment (h : History n) (j : Nat) :
    h.environment.parent? j = h.parent? j := by
  induction h with
  | empty => rfl
  | create h parent source bindings ih =>
    rw [parent?, Environment.parent?, frame?_create]
    split
    · rfl
    · exact ih
  | define h i other v ih =>
    rw [parent?, ← ih, environment, Environment.parent?, Environment.parent?,
      Environment.frame?_define]
    split
    · simp only [Option.bind_map, Function.comp_def]
    · rfl

theorem parent?_lt {h : History n} {j p : Nat} (hp : h.parent? j = some p) : p < j := by
  induction h with
  | empty => simp [parent?] at hp
  | create h parent source bindings ih =>
    rw [parent?] at hp
    split at hp
    · obtain ⟨p, -, rfl⟩ := Option.map_eq_some_iff.1 hp
      omega
    · exact ih hp
  | define h i name v ih => exact ih hp

/-! ## The way outward -/

/-- The frames from one frame outward through parents. -/
inductive Chain (h : History n) : Nat → List Nat → Prop where
  | root {i : Nat} (hroot : h.parent? i = none) : Chain h i [i]
  | step {i p : Nat} {path : List Nat} (hparent : h.parent? i = some p) (hpath : Chain h p path) :
      Chain h i (i :: path)

/-- **Every way outward comes to an end.** -/
theorem exists_chain (h : History n) (i : Nat) : ∃ path, h.Chain i path := by
  induction i using Nat.strongRecOn with
  | ind i ih =>
    cases hp : h.parent? i with
    | none => exact ⟨[i], .root hp⟩
    | some p =>
      obtain ⟨path, hpath⟩ := ih p (parent?_lt hp)
      exact ⟨i :: path, .step hp hpath⟩

namespace Chain

variable {h : History n} {i : Nat} {path : List Nat}

theorem unique {path' : List Nat} (hpath : h.Chain i path) (hpath' : h.Chain i path') :
    path' = path := by
  induction hpath generalizing path' with
  | root hroot =>
    cases hpath' with
    | root => rfl
    | step hparent => simp [hroot] at hparent
  | step hparent _ ih =>
    cases hpath' with
    | root hroot => simp [hroot] at hparent
    | step hparent' hpath' =>
      obtain rfl : _ = _ := Option.some.inj (hparent'.symm.trans hparent)
      rw [ih hpath']

theorem le_of_mem (hpath : h.Chain i path) : ∀ j ∈ path, j ≤ i := by
  induction hpath with
  | root => simp
  | step hparent _ ih =>
    have hlt := parent?_lt hparent
    refine List.forall_mem_cons.2 ⟨Nat.le_refl _, fun j hj => ?_⟩
    have hle := ih j hj
    omega

/-- On the way outward every frame is older than those before. -/
theorem pairwise (hpath : h.Chain i path) : path.Pairwise (· > ·) := by
  induction hpath with
  | root => simp
  | step hparent hpath ih =>
    refine .cons (fun j hj => ?_) ih
    have hle := hpath.le_of_mem j hj
    have hlt := parent?_lt hparent
    omega

theorem length_le (hpath : h.Chain i path) : path.length ≤ i + 1 := by
  induction hpath with
  | root => simp
  | step hparent _ ih =>
    have hlt := parent?_lt hparent
    rw [List.length_cons]
    omega

/-- **A name has the value of its first definition on the way outward.** -/
theorem get?_eq_findSome? (hpath : h.Chain i path) (name : Name) :
    h.environment.get? i name = path.findSome? (h.defined? · name) := by
  have hstep := h.environment.get?_eq_or (fun j p => by
    rw [h.parent?_environment]
    exact parent?_lt)
  induction hpath with
  | root hroot =>
    rw [hstep, own?_environment, parent?_environment, hroot]
    simp
  | step hparent _ ih =>
    rw [hstep, own?_environment, parent?_environment, hparent, Option.bind_some, ih,
      List.findSome?_cons]
    cases h.defined? _ name <;> rfl

/-- Neither definitions nor their values lead anywhere else. -/
theorem define_iff {j : Fin n} {name : Name} {v : Value} :
    (h.define j name v).Chain i path ↔ h.Chain i path := by
  constructor
  · intro hpath
    induction hpath with
    | root hroot => exact .root hroot
    | step hparent _ ih => exact .step hparent ih
  · intro hpath
    induction hpath with
    | root hroot => exact .root hroot
    | step hparent _ ih => exact .step hparent ih

end Chain

/-- The way outward from a frame comes to another one before any definition of a name, unless that
is in the other one itself. -/
def Reaches (h : History n) (name : Name) (i j : Nat) : Prop :=
  ∃ near far, h.Chain i (near ++ j :: far) ∧ ∀ k ∈ near, h.defined? k name = none

/-- **The nearest definition counts.** -/
theorem get?_eq_some_iff (h : History n) (i : Nat) (name : Name) (v : Value) :
    h.environment.get? i name = some v ↔
      ∃ j, h.Reaches name i j ∧ h.defined? j name = some v := by
  obtain ⟨path, hpath⟩ := h.exists_chain i
  rw [hpath.get?_eq_findSome?, List.findSome?_eq_some_iff]
  constructor
  · rintro ⟨near, j, far, rfl, hj, hnear⟩
    exact ⟨j, ⟨near, far, hpath, hnear⟩, hj⟩
  · rintro ⟨j, ⟨near, far, hpath', hnear⟩, hj⟩
    exact ⟨near, j, far, (hpath.unique hpath').symm, hj, hnear⟩

/-- A name has no value exactly if it is defined nowhere on the way outward. -/
theorem get?_eq_none_iff (h : History n) (i : Nat) (name : Name) :
    h.environment.get? i name = none ↔
      ∀ path, h.Chain i path → ∀ k ∈ path, h.defined? k name = none := by
  obtain ⟨path, hpath⟩ := h.exists_chain i
  rw [hpath.get?_eq_findSome?, List.findSome?_eq_none_iff]
  exact ⟨fun hnone path' hpath' => hpath.unique hpath' ▸ hnone, fun hnone => hnone path hpath⟩

/-! ## The reach of a definition -/

variable {h : History n} {i : Nat} {j : Fin n} {name other : Name} {v : Value} {path : List Nat}

theorem defined?_define_of_ne {k : Nat} (hk : ¬ (k = j ∧ other = name)) :
    (h.define j name v).defined? k other = h.defined? k other :=
  if_neg hk

/-- A definition is seen where the way outward reaches it. -/
theorem get?_define_of_reaches (hreach : h.Reaches name i j) (v : Value) :
    (h.define j name v).environment.get? i name = some v := by
  obtain ⟨near, far, hpath, hnear⟩ := hreach
  have hdefined : (h.define j name v).defined? j name = some v := if_pos ⟨rfl, rfl⟩
  refine (get?_eq_some_iff _ _ _ _).2
    ⟨j, ⟨near, far, Chain.define_iff.2 hpath, fun k hk => ?_⟩, hdefined⟩
  have hlt : k > j := (List.pairwise_append.1 hpath.pairwise).2.2 k hk j List.mem_cons_self
  rw [defined?_define_of_ne (by omega), hnear k hk]

/-- Elsewhere, and for all other names, a definition makes no difference.  By induction on the way
outward: it goes on only from a frame in which the name is not defined, and what is not reached from
that frame is not reached from its parent. -/
theorem Chain.findSome?_define (hpath : h.Chain i path)
    (hreach : ¬ (other = name ∧ h.Reaches name i j)) :
    path.findSome? ((h.define j name v).defined? · other) =
      path.findSome? (h.defined? · other) := by
  induction hpath with
  | @root i hroot =>
    have hne : ¬ (i = ↑j ∧ other = name) := fun ⟨hi, hother⟩ =>
      hreach ⟨hother, [], [], hi ▸ .root hroot, by simp⟩
    rw [List.findSome?_cons, List.findSome?_cons, defined?_define_of_ne hne]
    rfl
  | @step i p path hparent hpath ih =>
    have hne : ¬ (i = ↑j ∧ other = name) := fun ⟨hi, hother⟩ =>
      hreach ⟨hother, [], path, hi ▸ .step hparent hpath, by simp⟩
    rw [List.findSome?_cons, List.findSome?_cons, defined?_define_of_ne hne]
    cases hi : h.defined? i other with
    | some w => rfl
    | none =>
      refine ih fun ⟨hother, near, far, hpath', hnear⟩ => hreach ⟨hother, i :: near, far, ?_, ?_⟩
      · exact .step hparent hpath'
      · exact List.forall_mem_cons.2 ⟨hother ▸ hi, hnear⟩

theorem get?_define_of_not_reaches (hreach : ¬ (other = name ∧ h.Reaches name i j)) (v : Value) :
    (h.define j name v).environment.get? i other = h.environment.get? i other := by
  obtain ⟨path, hpath⟩ := h.exists_chain i
  rw [(Chain.define_iff.2 hpath).get?_eq_findSome?, hpath.get?_eq_findSome?,
    hpath.findSome?_define hreach]

end History

/-! ## Lookups -/

/-- A lookup finds the value of a text, or fails because there is none. -/
theorem Eval.lookup_text (i : Nat) (s : String) (m : Machine) :
    Eval.lookup i (.str s) m =
      match m.env.get? i s with
      | some v => .ok v m
      | none => .error (.failure (.ofCause (.unbound s))) m :=
  Eval.lookup_apply i (.str s) m

/-- **A lookup finds the nearest definition, after any history.**  The way outward from a frame is
finite.  A name has there the value of its last definition in the first frame on that way that has
any, and it is unbound exactly if no frame on that way has one.  A definition makes a difference
only for its own name, and only where the way outward reaches it before any other one. -/
theorem lookup_finds_nearest {n : Nat} (h : History n) (i : Fin n) :
    (∃! path, h.Chain i path) ∧
    (∀ path, h.Chain i path → path.Pairwise (· > ·) ∧ path.length ≤ i + 1) ∧
    (∀ name v, h.environment.get? i name = some v ↔
      ∃ j, h.Reaches name i j ∧ h.defined? j name = some v) ∧
    (∀ (s : String) (printed : List (List Value)),
      let m : Machine := ⟨h.environment, printed⟩
      (∀ v, Eval.lookup i (.str s) m = .ok v m ↔
        ∃ j, h.Reaches s i j ∧ h.defined? j s = some v) ∧
      (Eval.lookup i (.str s) m = .error (.failure (.ofCause (.unbound s))) m ↔
        ∀ path, h.Chain i path → ∀ k ∈ path, h.defined? k s = none) ∧
      (h.environment.has i s = true ↔ ∀ e m', Eval.lookup i (.str s) m ≠ .error e m')) ∧
    ∀ (j : Fin n) (name other : Name) (v : Value),
      let h' := h.define j name v
      (other = name ∧ h.Reaches name i j → h'.environment.get? i other = some v) ∧
      (¬ (other = name ∧ h.Reaches name i j) →
        h'.environment.get? i other = h.environment.get? i other) := by
  obtain ⟨path, hpath⟩ := h.exists_chain i
  refine ⟨⟨path, hpath, fun _ => hpath.unique⟩,
    fun path' hpath' => ⟨hpath'.pairwise, hpath'.length_le⟩, h.get?_eq_some_iff i,
    fun s printed => ⟨fun v => ?_, ?_, ?_⟩, fun j name other v =>
    ⟨?_, fun hreach => History.get?_define_of_not_reaches hreach v⟩⟩
  · rw [Eval.lookup_text, ← h.get?_eq_some_iff]
    cases h.environment.get? i s <;> simp
  · rw [Eval.lookup_text, ← h.get?_eq_none_iff]
    cases h.environment.get? i s <;> simp
  · rw [Eval.lookup_text, Environment.has]
    cases h.environment.get? i s <;> simp
  · rintro ⟨rfl, hreach⟩
    exact History.get?_define_of_reaches hreach v

/-- Two frames see the same root frame; one of them has a definition of its own. -/
theorem lookup_finds_nearest_shadowed :
    let h := (((History.empty.create none none Builtins.standard.bindings).create (some 0) none
      .empty).create (some 0) none .empty).define 1 "true" (.int 2)
    let h' := h.define 0 "true" (.int 3)
    h.Reaches "true" 2 0 ∧ h'.environment.get? 2 "true" = some (.int 3) ∧
      ¬ h.Reaches "true" 1 0 ∧ h'.environment.get? 1 "true" = some (.int 2) := by
  intro h h'
  have hseen : h.Reaches "true" 2 0 := ⟨[2], [], .step rfl (.root rfl), by simp; rfl⟩
  have hhidden : ¬ h.Reaches "true" 1 0 := by
    rintro ⟨near, far, hpath, hnear⟩
    have hpath' : h.Chain 1 [1, 0] := .step rfl (.root rfl)
    have heq := hpath'.unique hpath
    obtain _ | ⟨k, near⟩ := near
    · simp at heq
    · obtain ⟨rfl, -⟩ := List.cons.inj heq
      cases hnear 1 List.mem_cons_self
  have hget := fun i => (lookup_finds_nearest h i).2.2.2.2 0 "true" "true" (.int 3)
  exact ⟨hseen, (hget 2).1 ⟨rfl, hseen⟩, hhidden, (hget 1).2 fun hreach => hhidden hreach.2⟩

end Juxta
