import Juxta.Proofs.Evaluation.Host

/-!
# What an evaluation changes

An evaluation changes the frame that it is made at, in the names that the tree assigns, and it adds
to what has been printed.  It changes nothing else, however it ends, unless a function of the host
does.

## What is here

* `Environment.frame?_define` — what a definition does to the frames of an environment.
* `Environment.own?` — the value of a name in a frame itself.
* `Machine.Touches` — a machine comes from another by touching only some names of one frame.
* `Host.KeepsFrames` — the functions of a host leave all frames alone.
* `evaluation_touches_assigned` — evaluation touches only what it assigns.
-/

set_option autoImplicit false
namespace Juxta

/-! ## Frames after a definition -/

namespace Environment

variable {env : Environment} {i j : Nat} {name other : Name} {v : Value}

/-- Only the frame that is changed differs. -/
theorem frame?_updateIn (change : Frame → Frame) (frames : List Frame) (i j : Nat) :
    frame? ⟨updateIn change frames i⟩ j =
      if j = i then (frame? ⟨frames⟩ j).map change else frame? ⟨frames⟩ j := by
  rw [frame?, frame?]
  dsimp only
  induction frames with
  | nil => simp [updateIn, frameIn]
  | cons f older ih =>
    rw [updateIn]
    by_cases hi : i = older.length
    · rw [if_pos hi, frameIn, frameIn]
      by_cases hj : j = older.length
      · rw [if_pos hj, if_pos hj, if_pos (hj.trans hi.symm)]
        rfl
      · rw [if_neg hj, if_neg hj, if_neg (fun h => hj (h.trans hi))]
    · rw [if_neg hi, frameIn, frameIn, length_updateIn]
      by_cases hj : j = older.length
      · rw [if_pos hj, if_pos hj, if_neg (fun h => hi (h.symm.trans hj))]
      · rw [if_neg hj, if_neg hj, ih]

theorem frame?_define (env : Environment) (i : Nat) (name : Name) (v : Value) (j : Nat) :
    (env.define i name v).frame? j =
      if j = i then (env.frame? j).map fun f => { f with bindings := f.bindings.set name v }
      else env.frame? j :=
  frame?_updateIn _ env.frames i j

/-- The value of a name in the very frame with the given number. -/
def own? (env : Environment) (i : Nat) (name : Name) : Option Value :=
  (env.frame? i).bind (·.bindings.get? name)

theorem own?_define_of_ne (h : other ≠ name) :
    (env.define i name v).own? i other = env.own? i other := by
  rw [own?, own?, frame?_define, if_pos rfl]
  cases env.frame? i with
  | none => rfl
  | some f => exact (f.bindings.get?_set name other v).trans (if_neg h)

/-- A definition unbinds no name. -/
theorem isSome_own?_define (h : (env.own? i other).isSome = true) :
    ((env.define i name v).own? i other).isSome = true := by
  by_cases hother : other = name
  · rw [own?] at h
    rw [own?, frame?_define, if_pos rfl]
    cases hframe : env.frame? i with
    | none =>
      rw [hframe] at h
      cases h
    | some f =>
      show ((f.bindings.set name v).get? other).isSome = true
      rw [Bindings.get?_set, if_pos hother]
      rfl
  · rwa [own?_define_of_ne hother]

end Environment

/-! ## Touching names of a frame -/

/-- The second machine comes from the first by printing only. -/
structure Machine.Prints (m m' : Machine) : Prop where
  env : m'.env = m.env
  output : ∃ text, m'.output = m.output ++ text

theorem exists_append_trans {s t u : String} (h : ∃ text, t = s ++ text)
    (h' : ∃ text, u = t ++ text) : ∃ text, u = s ++ text := by
  obtain ⟨text, rfl⟩ := h
  obtain ⟨more, rfl⟩ := h'
  exact ⟨text ++ more, String.append_assoc⟩

theorem Machine.Prints.refl (m : Machine) : m.Prints m :=
  ⟨rfl, "", String.append_empty.symm⟩

theorem Machine.Prints.print {m m' : Machine} (h : m.Prints m') (vs : List Value) :
    m.Prints { m' with printed := vs :: m'.printed } where
  env := h.env
  output := by
    refine exists_append_trans h.output ⟨String.join (vs.map Value.text) ++ "\n", ?_⟩
    simp [Machine.output, String.join_append]

/-- The second machine comes from the first by touching only the given names of a frame, and by
printing. -/
structure Machine.Touches (frame : Nat) (names : List Name) (m m' : Machine) : Prop where
  /-- There are no frames that there were not before. -/
  next : m'.env.next = m.env.next
  /-- All other frames are as they were. -/
  others : ∀ i, i ≠ frame → m'.env.frame? i = m.env.frame? i
  parent : (m'.env.frame? frame).map (·.parent) = (m.env.frame? frame).map (·.parent)
  /-- In the frame itself, all other names are as they were. -/
  own : ∀ name, name ∉ names → m'.env.own? frame name = m.env.own? frame name
  /-- No name gets lost. -/
  bound : ∀ name, (m.env.own? frame name).isSome = true → (m'.env.own? frame name).isSome = true
  source : ∀ i, m'.env.source? i = m.env.source? i
  output : ∃ text, m'.output = m.output ++ text

namespace Machine.Touches

variable {frame : Nat} {names : List Name} {m m' : Machine}

theorem refl (frame : Nat) (names : List Name) (m : Machine) : m.Touches frame names m where
  next := rfl
  others _ _ := rfl
  parent := rfl
  own _ _ := rfl
  bound _ h := h
  source _ := rfl
  output := ⟨"", String.append_empty.symm⟩

/-- Binding one of the names touches nothing else. -/
theorem define (h : m.Touches frame names m') {name : Name} (hname : name ∈ names) (v : Value) :
    m.Touches frame names { m' with env := m'.env.define frame name v } where
  next := (Environment.length_updateIn _ _ _).trans h.next
  others i hi := by
    rw [Environment.frame?_define, if_neg hi]
    exact h.others i hi
  parent := by
    rw [Environment.frame?_define, if_pos rfl, Option.map_map]
    exact h.parent
  own other hother := by
    rw [Environment.own?_define_of_ne (ne_of_mem_of_not_mem hname hother |>.symm)]
    exact h.own other hother
  bound other hother := Environment.isSome_own?_define (h.bound other hother)
  source i := by
    rw [Environment.source?_define]
    exact h.source i
  output := h.output

/-- Printing touches nothing. -/
theorem print {m'' : Machine} (h : m.Touches frame names m') (hprints : m'.Prints m'') :
    m.Touches frame names m'' where
  next := by rw [hprints.env, h.next]
  others i hi := by rw [hprints.env, h.others i hi]
  parent := by rw [hprints.env, h.parent]
  own name hname := by rw [hprints.env, h.own name hname]
  bound name hname := by
    rw [hprints.env]
    exact h.bound name hname
  source i := by rw [hprints.env, h.source i]
  output := exists_append_trans h.output hprints.output

end Machine.Touches

/-! ## Hosts that leave the frames alone -/

/-- The functions of a host leave all frames alone, and do nothing but printing. -/
def Host.KeepsFrames (h : Host) : Prop :=
  ∀ (frame : Nat) (f : Native) (args : List Value) (m : Machine),
    m.Prints (endingOf (h.run frame f args m)).2

/-- The functions that the evaluator knows leave all frames alone. -/
theorem Host.standard_keepsFrames : standard.KeepsFrames := by
  intro frame f args m
  exact (Action.run_leaves (fun _ vs hm => hm.print vs) f.name args f.action).machine (.refl m)

namespace Host.KeepsFrames

variable {h : Host} {frame : Nat} {m : Machine}

/-- A machine that touches only some names goes on to touch only these. -/
theorem theory (hh : h.KeepsFrames) (frame : Nat) (names : List Name) (m : Machine) :
    h.Theory frame (· ∈ names) (m.Touches frame names) (fun _ => True) (fun _ => True) where
  nil := trivial
  quoted _ := trivial
  lookup _ _ _ _ _ := trivial
  define _ _ v hname _ hm := hm.define hname v
  operator _ _ _ _ _ _ _ := trivial
  run f args _ _ := Eval.leaves_of_endingOf fun m' hm => hm.print (hh frame f args m')
  failure _ := trivial
  defect _ := trivial

/-- With such a host, an evaluation touches only what the tree assigns. -/
theorem touches_eval (hh : h.KeepsFrames) (frame : Nat) (n : Node) (m : Machine) :
    m.Touches frame n.assigned (endingOf (h.eval frame n m)).2 := by
  refine ((hh.theory frame n.assigned m).eval_keeps n fun c hc => ?_).machine (.refl _ _ m)
  refine ⟨fun name hname => ?_, fun _ _ => trivial⟩
  exact List.mem_filterMap.2 ⟨c, hc, hname⟩

end Host.KeepsFrames

/-- **Evaluation touches only what it assigns.**  However the evaluation of a tree ends, and
whatever environment it finds, it changes nothing but the names of its frame that the tree assigns
outside of all quotations, blocks, property accesses and unquotations, and it only adds to the
output.  The same holds with all other functions of a host that leave the frames alone. -/
theorem evaluation_touches_assigned (frame : Nat) (n : Node) (m : Machine) :
    m.Touches frame n.assigned (endingOf (n.eval frame m)).2 ∧
      ∀ h : Host, h.KeepsFrames → m.Touches frame n.assigned (endingOf (h.eval frame n m)).2 := by
  refine ⟨?_, fun h hh => hh.touches_eval frame n m⟩
  rw [← Host.eval_standard]
  exact Host.standard_keepsFrames.touches_eval frame n m

/-- At a frame between two others: an assignment within another, one that is quoted, the call of a
function that the evaluator does not know, and one that fails. -/
theorem evaluation_touches_assigned_failure :
    let name (s : String) : Node := .leaf .identifier (.str s) none
    let assign (s : String) (rhs : Node) : Node :=
      .branch .binary [name s, .leaf .operator (.str ":=") none, rhs] none
    let n : Node := .branch .program
      [assign "x" (assign "y" (name "true")), .branch .quoted [assign "z" (name "x")] none,
        .branch .functionCall [name "println", .branch .functionCall [name "level"] none,
          name "y"] none,
        .branch .functionCall [name "println", assign "x" (name "missing")] none] none
    let root := (Builtins.standard.register ⟨"level", some 0, .nothing⟩).environment none
    let m := Machine.ofEnvironment ((root.add (some 0) none .empty).add (some 1) none .empty)
    let h : Host := ⟨fun frame f args =>
      if f.name = "level" then pure (.int frame) else f.action.run f.name args⟩
    let ended := endingOf (h.eval 1 n m)
    h.KeepsFrames ∧ n.assigned = [.text "x", .text "y", .text "x"] ∧
      ended.1.error? = some "unbound variable \"missing\"" ∧ ended.2.output = "1true\n" ∧
      (ended.2.env.own? 1 "x").isSome = true ∧ m.Touches 1 n.assigned ended.2 := by
  intro name assign n root m h ended
  have hh : h.KeepsFrames := by
    intro frame f args m
    dsimp only [h]
    split
    · exact .refl m
    · exact Host.standard_keepsFrames frame f args m
  exact ⟨hh, by decide +kernel, by decide +kernel, by decide +kernel, by decide +kernel,
    (evaluation_touches_assigned 1 n m).2 h hh⟩

end Juxta
