import Juxta.Proofs.Environment.History
import Juxta.Proofs.Evaluation.Effects
import Juxta.Proofs.Evaluation.FailingPath
import Juxta.Proofs.Evaluation.Formulas
import Juxta.Proofs.Parser.Modes

/-!
# Chains of assignments

Assignments nest to the right, and each of them yields nil.  In a chain only the last name is so
bound to the value of the right side; the others are bound to nil, after it and from right to left.
The targets are looked at on the way in, from left to right.  The first one that is no identifier
stops the assignments before the right side is evaluated, when nothing is bound yet.

## What is here

* `Assignee` — the left side of an assignment; `Assignee.IsRead` — its tokens stand for its target.
* `assignmentTokens`, `assignments` — the tokens and the tree of a chain; `reads_assignments`.
* `Parser.Mode.root` — the tree of a source that is one expression; `Parser.Mode.parse_root`.
* `assign` — what one assignment does; `eval_assignments_of_ok`, `eval_assignments_of_error` — what
  a chain comes to.
* `Machine.Assigns` — which names a chain binds, and to what.
* `assignments_bind_from_right` — the main result.
-/

set_option autoImplicit false
namespace Juxta

/-- The left side of an assignment: the tokens of a target, the target, and the operator. -/
structure Assignee where
  tokens : List Token
  target : Node
  operator : Token

/-- The tokens of a chain of assignments, in front of those of its right side. -/
def assignmentTokens (as : List Assignee) (body : List Token) : List Token :=
  as.foldr (fun a rest => a.tokens ++ a.operator :: rest) body

/-- A chain of assignments with its right side. -/
def assignments (as : List Assignee) (e : Node) : Node :=
  as.foldr (fun a rhs => Parser.binaryNode a.target a.operator rhs) e

variable {frame : Nat} {a : Assignee} {as : List Assignee} {e rhs : Node} {name x : Name}
  {xs : List Name} {v : Value} {i : Interrupt} {m m₁ m' : Machine} {r : Value × Machine}
  {ts body : List Token} {source : String}

/-- A name by itself is read as its leaf. -/
theorem Parser.reads_name {t : Token} {rest : List Token} (ht : t.Lexical) (hname : t.kind = .ident)
    (hrest : Ends rest) :
    Reads standardForms .intermediate (t :: rest) [textLeaf .identifier t] rest := by
  have hform := formAt_of_formOfKind ht hname rfl
  exact .call (.propertyOrValue (.leaf hform rfl) (.noProperty hrest.point)) hrest.operator
    (.noArgument hrest.call)

/-- An identifier of the grammar holds a text. -/
theorem Parser.HasShape.exists_name {c : Parser.Category} {n : Node} (h : Parser.HasShape c n)
    (hkind : n.kind = .identifier) : ∃ s start, n = .leaf .identifier (.str s) start := by
  induction h with
  | identifier => exact ⟨_, _, rfl⟩
  | group _ ih | noProperty _ ih | noOperand _ ih | noCall _ ih | plain _ ih => exact ih hkind
  | _ => exact absurd hkind nofun

/-- What interrupts an evaluation interrupts the node around, if with a place that it has there. -/
theorem Eval.locating_of_error {α : Type} {act : Eval α} (h : act m = .error i m')
    (start : Option Int) :
    ∃ i', Eval.locating frame start act m = .error i' m' ∧ i'.withoutPlace = i.withoutPlace := by
  cases hlocated : Eval.locating frame start act m with
  | ok v m₁ =>
    rw [Eval.locating_eq_ok_iff, h] at hlocated
    exact absurd hlocated nofun
  | error i' m₁ =>
    obtain ⟨i₀, hact, hplace⟩ := Eval.locating_eq_error hlocated
    obtain ⟨rfl, rfl⟩ := EStateM.Result.error.inj (h.symm.trans hact)
    exact ⟨i', rfl, hplace⟩

namespace Assignee

/-- The name that is assigned, if the target is an identifier. -/
def name? (a : Assignee) : Option Name :=
  match a.target with
  | .leaf .identifier p _ => p.name?
  | _ => none

/-- The tokens are read as the target in front of the operator of assignments. -/
structure IsRead (a : Assignee) : Prop where
  reads : Parser.Reads Parser.standardForms .intermediate (a.tokens ++ [a.operator]) [a.target]
    [a.operator]
  kind : a.operator.kind = .rightOperator
  text : a.operator.text = ":="

/-- The left side of an assignment to a name. -/
def ofName (t op : Token) : Assignee :=
  ⟨[t], Parser.textLeaf .identifier t, op⟩

theorem isRead_ofName {t op : Token} (ht : t.Lexical) (hname : t.kind = .ident) (hop : op.Lexical)
    (hkind : op.kind = .rightOperator) (htext : op.text = ":=") : (ofName t op).IsRead where
  reads := Parser.reads_name ht hname (Parser.ends_rightOperator hop hkind)
  kind := hkind
  text := htext

theorem exists_target (h : a.name? = some x) :
    ∃ p start, a.target = .leaf .identifier p start ∧ p.name? = some x := by
  rw [name?] at h
  split at h
  · next p start htarget => exact ⟨p, start, htarget, h⟩
  · exact absurd h nofun

/-- What is read and is no name is no identifier at all. -/
theorem IsRead.kind_ne (h : a.IsRead) (hlex : ∀ t ∈ a.tokens ++ [a.operator], t.Lexical)
    (hname : a.name? = none) : a.target.kind ≠ .identifier := by
  intro hkind
  have hshape := List.forall_mem_singleton.1 (h.reads.hasShape hlex trivial)
  obtain ⟨s, start, htarget⟩ := hshape.exists_name hkind
  rw [name?, htarget] at hname
  exact absurd hname nofun

end Assignee

/-! ## The tree of a chain -/

theorem assignments_append (before after : List Assignee) (e : Node) :
    assignments (before ++ after) e = assignments before (assignments after e) :=
  List.foldr_append

/-- **A chain nests to the right.**  The targets are read one after the other, and what is behind
the last operator is the right side. -/
theorem reads_assignments (has : ∀ a ∈ as, a.IsRead)
    (hbody : Parser.Reads Parser.standardForms .expression body [e] []) :
    Parser.Reads Parser.standardForms .expression (assignmentTokens as body) [assignments as e]
      [] := by
  induction as with
  | nil => exact hbody
  | cons a as ih =>
    obtain ⟨ha, has⟩ := List.forall_mem_cons.1 has
    have htarget := ha.reads.exchange_append (.cons a.operator [] (assignmentTokens as body))
    exact .nested htarget ha.kind (ih has)

theorem mem_assignmentTokens {before after : List Assignee} {t : Token}
    (ht : t ∈ a.tokens ++ [a.operator]) :
    t ∈ assignmentTokens (before ++ a :: after) body := by
  induction before with
  | nil =>
    show t ∈ a.tokens ++ a.operator :: assignmentTokens after body
    rw [List.append_cons]
    exact List.mem_append_left _ ht
  | cons b before ih => exact List.mem_append_right _ (List.mem_cons_of_mem _ ih)

namespace Parser.Mode

/-- The tree of a source that is one expression. -/
def root (n : Node) : Mode → Node
  | program => .branch .program [n] none
  | expressions => .branch .expressions [n] none
  | expression => n

/-- A source that is one expression is parsed in every mode. -/
theorem parse_root {node : Node} (htokens : Token.tokenize source = .ok ts)
    (hread : Reads standardForms .expression ts [node] []) (mode : Mode) (tracing : Bool) :
    (parseSource { Settings.standard with tracing } mode source).tree = .ok (mode.root node) := by
  have hstatements := hread.statements_of_expression (Token.lexical_of_tokenize htokens)
  have hmakes : mode.Makes standardForms ts (mode.root node) := by
    cases mode with
    | program => exact .program hstatements
    | expressions => exact .expressions hstatements
    | expression => exact .expression hread
  have hparses := parsesTo_parseSource { Settings.standard with tracing } mode source
  exact (ParsesTo.tree htokens hmakes).unique hparses

theorem eval_expressions (node : Node) :
    (root node expressions).eval frame = node.eval frame := by
  rw [root, Node.eval, Eval.locating_none]
  simp [Node.evalAll]

theorem eval_program (node : Node) :
    (root node program).eval frame = node.eval frame >>= fun _ => pure .nil := by
  rw [root, Node.eval, Eval.locating_none]
  simp [Node.evalAll]

/-- In every mode the tree of an expression yields what the expression does, but for a program,
which yields nil. -/
theorem eval_root_of_ok {node : Node} (h : node.eval frame m = .ok v m') (mode : Mode) :
    (mode.root node).eval frame m = .ok (if mode = program then .nil else v) m' := by
  cases mode with
  | program => rw [eval_program, Eval.bind_of_ok h]; rfl
  | expressions => rw [eval_expressions, h]; rfl
  | expression => exact h

theorem eval_root_of_nil {node : Node} (h : node.eval frame m = .ok .nil m') (mode : Mode) :
    (mode.root node).eval frame m = .ok .nil m' := by
  rw [eval_root_of_ok h, ite_self]

theorem eval_root_of_error {node : Node} (h : node.eval frame m = .error i m') (mode : Mode) :
    (mode.root node).eval frame m = .error i m' := by
  cases mode with
  | program => rw [eval_program, Eval.bind_of_error h]
  | expressions => rw [eval_expressions, h]
  | expression => exact h

/-- The failing path of an expression goes on to the root of its source. -/
theorem exists_failsAlong_root {node : Node} {path : List Node} {cause : Cause}
    (h : FailsAlong frame node m path cause) (mode : Mode) :
    ∃ outer, FailsAlong frame (mode.root node) m (path ++ outer) cause := by
  have hcall {k : Node.Kind} (hk : k ∈ [Node.Kind.program, .expressions]) :
      Calls frame (.branch k [node] none) m node m := by
    refine .part ?_ (List.nil_append _).symm rfl fun _ => nofun
    simp only [List.mem_cons, List.not_mem_nil, or_false] at hk ⊢
    exact hk.imp_right .inl
  cases mode with
  | program => exact ⟨_, .within (hcall (by simp)) h⟩
  | expressions => exact ⟨_, .within (hcall (by simp)) h⟩
  | expression => exact ⟨[], by rwa [List.append_nil]⟩

end Parser.Mode

/-! ## One assignment -/

/-- What an assignment makes of the value of its right side and the machine. -/
def assign (frame : Nat) (name : Name) (r : Value × Machine) : Value × Machine :=
  (.nil, { r.2 with env := r.2.env.define frame name r.1 })

theorem eval_binaryNode (htext : a.operator.text = ":=") :
    (Parser.binaryNode a.target a.operator rhs).eval frame =
      Eval.locating frame a.target.start (do
        let p ← a.target.assignmentTarget
        let v ← rhs.eval frame
        Eval.define frame p v
        pure .nil) := by
  have hplain : (Node.Payload.str a.operator.text).plain = ":=" := htext
  rw [Parser.binaryNode, Node.eval_binary rfl, Node.evalBinary, if_pos hplain]

/-- The name is bound to the value of the right side. -/
theorem eval_assign_of_ok (htext : a.operator.text = ":=") (hname : a.name? = some name)
    (h : rhs.eval frame m = .ok r.1 r.2) :
    (Parser.binaryNode a.target a.operator rhs).eval frame m =
      .ok (assign frame name r).1 (assign frame name r).2 := by
  obtain ⟨p, start, htarget, hp⟩ := a.exists_target hname
  rw [eval_binaryNode htext, Eval.locating_eq_ok_iff, htarget]
  show (do let v ← rhs.eval frame; Eval.define frame p v; pure .nil : Eval Value) m = _
  rw [Eval.bind_of_ok h, Eval.define, hp]
  rfl

/-- If the right side is interrupted, nothing is bound. -/
theorem eval_assign_of_error (htext : a.operator.text = ":=") (hname : a.name? = some name)
    (h : rhs.eval frame m = .error i m₁) :
    ∃ i', (Parser.binaryNode a.target a.operator rhs).eval frame m = .error i' m₁ ∧
      i'.withoutPlace = i.withoutPlace := by
  obtain ⟨p, start, htarget, -⟩ := a.exists_target hname
  rw [eval_binaryNode htext]
  refine Eval.locating_of_error ?_ a.target.start
  rw [htarget]
  show (do let v ← rhs.eval frame; Eval.define frame p v; pure .nil : Eval Value) m = _
  exact Eval.bind_of_error h

/-- If the target is no identifier, the right side is not evaluated. -/
theorem eval_assign_of_kind_ne (htext : a.operator.text = ":=")
    (hkind : a.target.kind ≠ .identifier) (frame : Nat) (rhs : Node) (m : Machine) :
    ∃ i, (Parser.binaryNode a.target a.operator rhs).eval frame m = .error i m := by
  have htarget : a.target.assignmentTarget m = .error _ m := Node.assignmentTarget_of_kind hkind
  rw [eval_binaryNode htext]
  obtain ⟨i, heval, -⟩ := Eval.locating_of_error (Eval.bind_of_error htarget) a.target.start
  exact ⟨i, heval⟩

/-! ## Many assignments -/

/-- **The assignments of a chain are made from right to left**, each with the value of the one
before it. -/
theorem eval_assignments_of_ok (has : ∀ a ∈ as, a.IsRead)
    (hnames : as.map Assignee.name? = xs.map some) (h : e.eval frame m = .ok v m₁) :
    (assignments as e).eval frame m =
      .ok (xs.foldr (assign frame) (v, m₁)).1 (xs.foldr (assign frame) (v, m₁)).2 := by
  induction as generalizing xs with
  | nil =>
    obtain rfl := List.map_eq_nil_iff.1 hnames.symm
    exact h
  | cons a as ih =>
    obtain ⟨x, xs, rfl, hx, hxs⟩ := List.map_eq_cons_iff.1 hnames.symm
    obtain ⟨ha, has⟩ := List.forall_mem_cons.1 has
    exact eval_assign_of_ok ha.text hx.symm (ih has hxs.symm)

/-- **A chain whose right side is interrupted does nothing**, as far as its targets are names. -/
theorem eval_assignments_of_error (has : ∀ a ∈ as, a.IsRead)
    (hnames : ∀ a ∈ as, a.name?.isSome = true) (h : e.eval frame m = .error i m₁) :
    ∃ i', (assignments as e).eval frame m = .error i' m₁ ∧ i'.withoutPlace = i.withoutPlace := by
  induction as with
  | nil => exact ⟨i, h, rfl⟩
  | cons a as ih =>
    obtain ⟨ha, has⟩ := List.forall_mem_cons.1 has
    obtain ⟨hname, hnames⟩ := List.forall_mem_cons.1 hnames
    obtain ⟨name, hname⟩ := Option.isSome_iff_exists.1 hname
    obtain ⟨i₁, hrest, hplace⟩ := ih has hnames
    obtain ⟨i', heval, hplace'⟩ := eval_assign_of_error ha.text hname hrest
    exact ⟨i', heval, hplace'.trans hplace⟩

/-- The first target that is no identifier fails, and the failure goes out through the assignments
to the left of it. -/
theorem exists_failsAlong_assignments (has : ∀ b ∈ as, b.IsRead)
    (hnames : ∀ b ∈ as, b.name?.isSome = true) (htext : a.operator.text = ":=")
    (hkind : a.target.kind ≠ .identifier) (frame : Nat) (rhs : Node) (m : Machine) :
    ∃ outer, FailsAlong frame (assignments as (Parser.binaryNode a.target a.operator rhs)) m
      (Parser.binaryNode a.target a.operator rhs :: outer) .expectedIdentifier := by
  induction as with
  | nil => exact ⟨[], .here (.target rfl htext hkind)⟩
  | cons b as ih =>
    obtain ⟨hb, has⟩ := List.forall_mem_cons.1 has
    obtain ⟨hname, hnames⟩ := List.forall_mem_cons.1 hnames
    obtain ⟨name, hname⟩ := Option.isSome_iff_exists.1 hname
    obtain ⟨p, start, htarget, -⟩ := b.exists_target hname
    obtain ⟨outer, hpath⟩ := ih has hnames
    refine ⟨outer ++ [assignments (b :: as) (Parser.binaryNode a.target a.operator rhs)], ?_⟩
    refine .within (?_ : Calls frame _ m _ m) hpath
    show Calls frame (Parser.binaryNode b.target b.operator _) m _ m
    rw [Parser.binaryNode, htarget]
    exact .assigned rfl hb.text

/-! ## What is bound -/

theorem Environment.own?_define {env : Environment} (h : frame < env.next) (name other : Name)
    (v : Value) :
    (env.define frame name v).own? frame other =
      if other = name then some v else env.own? frame other := by
  obtain ⟨f, hf⟩ := Environment.exists_frame?_iff.2 h
  rw [Environment.own?, Environment.own?, Environment.frame?_define, if_pos rfl, hf]
  exact f.bindings.get?_set name other v

/-- The second machine comes from the first by binding names in a frame, and nothing else: the last
name to the value, and then all others to nil, whether or not the last is among them. -/
structure Machine.Assigns (frame : Nat) (xs : List Name) (v : Value) (m m' : Machine) : Prop where
  touches : m.Touches frame xs m'
  printed : m'.printed = m.printed
  others : ∀ x ∈ xs.dropLast, m'.env.own? frame x = some .nil
  last : ∀ x, xs.getLast? = some x → x ∉ xs.dropLast → m'.env.own? frame x = some v

/-- After the first of some assignments the value is nil. -/
theorem fst_assigned (hne : xs ≠ []) : (xs.foldr (assign frame) (v, m)).1 = .nil := by
  obtain ⟨x, xs, rfl⟩ := List.exists_cons_of_ne_nil hne
  rfl

theorem touches_assigned {names : List Name} (h : xs ⊆ names) (v : Value) (m : Machine) :
    m.Touches frame names (xs.foldr (assign frame) (v, m)).2 := by
  induction xs with
  | nil => exact .refl frame names m
  | cons x xs ih =>
    obtain ⟨hx, hxs⟩ := List.cons_subset.1 h
    exact (ih hxs).define hx _

theorem printed_assigned (xs : List Name) (v : Value) (m : Machine) :
    (xs.foldr (assign frame) (v, m)).2.printed = m.printed := by
  induction xs with
  | nil => rfl
  | cons x xs ih => exact ih

/-- The bindings after some assignments: what is assigned further to the left counts. -/
theorem own?_assigned (hframe : frame < m.env.next) (x : Name) (xs : List Name) (v : Value) :
    (xs.foldr (assign frame) (v, m)).2.env.own? frame x =
      if x ∈ xs.dropLast then some .nil
      else if xs.getLast? = some x then some v
      else m.env.own? frame x := by
  induction xs with
  | nil => rfl
  | cons y ys ih =>
    have hnext : frame < (ys.foldr (assign frame) (v, m)).2.env.next := by
      rwa [(touches_assigned (List.Subset.refl ys) v m).next]
    show (Environment.define _ frame y _).own? frame x = _
    rw [Environment.own?_define hnext, ih]
    rcases ys with _ | ⟨z, zs⟩
    · simp [eq_comm]
    · rw [fst_assigned (List.cons_ne_nil z zs), List.dropLast_cons_cons, List.getLast?_cons_cons]
      by_cases hxy : x = y <;> simp [hxy]

theorem assigns_assigned (hframe : frame < m.env.next) (xs : List Name) (v : Value) :
    m.Assigns frame xs v (xs.foldr (assign frame) (v, m)).2 where
  touches := touches_assigned (List.Subset.refl xs) v m
  printed := printed_assigned xs v m
  others x hx := by rw [own?_assigned hframe, if_pos hx]
  last x hx hother := by rw [own?_assigned hframe, if_neg hother, if_pos hx]

/-- An evaluation makes no frames. -/
theorem Node.next_of_eval {n : Node} (h : n.eval frame m = .ok v m') :
    m'.env.next = m.env.next := by
  have htouches := Host.standard_keepsFrames.touches_eval frame n m
  rw [Host.eval_standard, h] at htouches
  exact htouches.next

/-! ## The main result -/

/-- **A chain of assignments binds its names from right to left and yields nil.**  A source whose
tokens are targets, each with the operator of assignments behind it, and then a right side, is
parsed in every mode as the chain of these assignments.  Where it is evaluated,

* if all targets are names and the right side has a value, the chain yields nil.  The last name is
  bound to the value, unless it is among the others, which are bound to nil; all else is as the
  right side has left it;
* if all targets are names and the right side is interrupted, then so is the chain, and it leaves
  just what the right side has left;
* the first target that is no name fails, in the machine that the chain was found in, whatever
  comes behind that target. -/
theorem assignments_bind_from_right (as : List Assignee) (e : Node) (body : List Token)
    (source : String) (mode : Parser.Mode) (hne : as ≠ []) (has : ∀ a ∈ as, a.IsRead)
    (hbody : Parser.Reads Parser.standardForms .expression body [e] [])
    (hsource : Token.tokenize source = .ok (assignmentTokens as body)) :
    let node := mode.root (assignments as e)
    (∀ tracing : Bool,
      (Parser.parseSource { Parser.Settings.standard with tracing } mode source).tree = .ok node) ∧
    (∀ xs : List Name, as.map Assignee.name? = xs.map some → ∀ (frame : Nat) (m m₁ : Machine),
      (∀ v, e.eval frame m = .ok v m₁ → frame < m.env.next →
        ∃ m', node.eval frame m = .ok .nil m' ∧ m₁.Assigns frame xs v m') ∧
      ∀ i, e.eval frame m = .error i m₁ →
        ∃ i', node.eval frame m = .error i' m₁ ∧ i'.withoutPlace = i.withoutPlace) ∧
    ∀ before a after, as = before ++ a :: after → (∀ b ∈ before, b.name?.isSome = true) →
      a.name? = none → ∀ (frame : Nat) (m : Machine), ∃ (g : Failure) (outer : List Node),
        node.eval frame m = .error (.failure g) m ∧ g.cause = .expectedIdentifier ∧
        FailsAlong frame node m (assignments (a :: after) e :: outer) .expectedIdentifier := by
  refine ⟨mode.parse_root hsource (reads_assignments has hbody), ?_, ?_⟩
  · intro xs hnames frame m m₁
    refine ⟨fun v hv hframe => ?_, fun i hi => ?_⟩
    · have hnil : xs ≠ [] := by
        rintro rfl
        exact hne (List.map_eq_nil_iff.1 hnames)
      have heval := eval_assignments_of_ok has hnames hv
      rw [fst_assigned hnil] at heval
      exact ⟨_, mode.eval_root_of_nil heval, assigns_assigned (Node.next_of_eval hv ▸ hframe) xs v⟩
    · have hall : ∀ a ∈ as, a.name?.isSome = true := by
        intro a ha
        obtain ⟨x, -, hx⟩ := List.mem_map.1 (hnames ▸ List.mem_map_of_mem ha)
        rw [← hx]
        rfl
      obtain ⟨i', heval, hplace⟩ := eval_assignments_of_error has hall hi
      exact ⟨i', mode.eval_root_of_error heval, hplace⟩
  · rintro before a after rfl hbefore hname frame m
    obtain ⟨hasbefore, hrest⟩ := List.forall_mem_append.1 has
    obtain ⟨ha, -⟩ := List.forall_mem_cons.1 hrest
    have hkind : a.target.kind ≠ .identifier :=
      ha.kind_ne (fun t ht => Token.lexical_of_tokenize hsource t (mem_assignmentTokens ht)) hname
    obtain ⟨i₀, hi₀⟩ := eval_assign_of_kind_ne ha.text hkind frame (assignments after e) m
    obtain ⟨i, hi, -⟩ := eval_assignments_of_error hasbefore hbefore hi₀
    obtain ⟨inner, hinner⟩ :=
      exists_failsAlong_assignments hasbefore hbefore ha.text hkind frame (assignments after e) m
    obtain ⟨outer, hpath⟩ := mode.exists_failsAlong_root hinner
    obtain ⟨m', heval⟩ := hpath.eval
    obtain ⟨rfl, rfl⟩ := EStateM.Result.error.inj ((mode.eval_root_of_error hi).symm.trans heval)
    rw [assignments_append]
    exact ⟨_, inner ++ outer, heval, rfl, hpath⟩

/-- A name that is assigned twice, a right side that is unbound, and a target in parentheses. -/
theorem assignments_bind_from_right_repeated :
    let name (s : String) (place : Int) : Token := ⟨.ident, s, place⟩
    let op (place : Int) : Token := ⟨.rightOperator, ":=", place⟩
    let target (s : String) (place : Int) : Assignee := .ofName (name s place) (op (place + 2))
    let as := [target "a" 0, target "b" 5, target "a" 10, target "c" 15]
    let e := Parser.textLeaf .identifier (name "x" 20)
    let group : Assignee :=
      { tokens := [⟨.punctuation, "(", 5⟩, name "b" 6, ⟨.punctuation, ")", 7⟩]
        target := .branch .parenthesis [Parser.textLeaf .identifier (name "b" 6)] (some 5)
        operator := op 9 }
    let bs := [target "a" 0, group, target "c" 12]
    let e' := Parser.textLeaf .identifier (name "x" 17)
    let m := Machine.ofEnvironment (Builtins.standard.environment none)
    let m₁ := { m with env := m.env.define 0 "x" (.int 3) }
    (Parser.parse .expressions "a := b := a := c := x" =
        .ok (.branch .expressions [assignments as e] none)) ∧
      (∃ m', (Node.branch .expressions [assignments as e] none).eval 0 m₁ = .ok .nil m' ∧
        m'.env.own? 0 "a" = some .nil ∧ m'.env.own? 0 "b" = some .nil ∧
        m'.env.own? 0 "c" = some (.int 3) ∧ m'.env.own? 0 "x" = m₁.env.own? 0 "x") ∧
      (∃ i, (Node.branch .expressions [assignments as e] none).eval 0 m = .error i m) ∧
      ∃ g, (assignments bs e').eval 0 m₁ = .error (.failure g) m₁ ∧
        g.cause = .expectedIdentifier := by
  intro name op target as e group bs e' m m₁
  have hsource : Token.tokenize "a := b := a := c := x" =
      .ok (assignmentTokens as [name "x" 20]) := by decide +kernel
  have hsource' : Token.tokenize "a := (b) := c := x" =
      .ok (assignmentTokens bs [name "x" 17]) := by decide +kernel
  have hlex := Token.lexical_of_tokenize hsource
  have hlex' := Token.lexical_of_tokenize hsource'
  have htarget {s : String} {place : Int} (ht : (name s place).Lexical)
      (hop : (op (place + 2)).Lexical) : (target s place).IsRead :=
    Assignee.isRead_ofName ht rfl hop rfl rfl
  have hinner : Parser.Reads Parser.standardForms .intermediate
      (name "b" 6 :: [⟨.punctuation, ")", 7⟩, op 9])
      [Parser.textLeaf .identifier (name "b" 6)] [⟨.punctuation, ")", 7⟩, op 9] :=
    Parser.reads_name (hlex' _ (by decide)) rfl ⟨rfl, rfl, rfl, rfl⟩
  have hgroup : group.IsRead := by
    have hparens : Parser.Reads Parser.standardForms .parens (group.tokens ++ [op 9])
        [group.target] [op 9] := .parens rfl (.plain hinner rfl) rfl
    have hgroup := Parser.Reads.group (by decide) hparens
    exact ⟨.call (.propertyOrValue hgroup (.noProperty rfl)) rfl (.noArgument rfl), rfl, rfl⟩
  have has : ∀ a ∈ as, a.IsRead := by
    simp only [as, List.forall_mem_cons, List.not_mem_nil, false_imp_iff, implies_true, and_true]
    refine ⟨?_, ?_, ?_, ?_⟩ <;> exact htarget (hlex _ (by decide)) (hlex _ (by decide))
  have hbs : ∀ b ∈ bs, b.IsRead := by
    simp only [bs, List.forall_mem_cons, List.not_mem_nil, false_imp_iff, implies_true, and_true]
    refine ⟨?_, hgroup, ?_⟩ <;> exact htarget (hlex' _ (by decide)) (hlex' _ (by decide))
  have hbody {place : Int} (ht : (name "x" place).Lexical) :
      Parser.Reads Parser.standardForms .expression [name "x" place]
        [Parser.textLeaf .identifier (name "x" place)] [] :=
    .plain (Parser.reads_name ht rfl Parser.EndsExpression.nil.toEnds) rfl
  obtain ⟨hparse, hnames, -⟩ := assignments_bind_from_right as e _ _ .expressions
    (List.cons_ne_nil _ _) has (hbody (hlex _ (by decide))) hsource
  obtain ⟨-, -, htargets⟩ := assignments_bind_from_right bs e' _ _ .expression
    (List.cons_ne_nil _ _) hbs (hbody (hlex' _ (by decide))) hsource'
  have hxs : as.map Assignee.name? = [.text "a", .text "b", .text "a", .text "c"].map some := rfl
  obtain ⟨m', heval, hassigns⟩ := (hnames _ hxs 0 m₁ m₁).1 (.int 3) rfl (by decide)
  obtain ⟨i, hi, -⟩ := (hnames _ hxs 0 m m).2 _ rfl
  have hfirst : ∀ b ∈ [target "a" 0], b.name?.isSome = true := List.forall_mem_singleton.2 rfl
  obtain ⟨g, -, hg, hcause, -⟩ := htargets _ group [target "c" 12] rfl hfirst rfl 0 m₁
  refine ⟨hparse false, ⟨m', heval, ?_, ?_, ?_, ?_⟩, ⟨i, hi⟩, g, hg, hcause⟩
  · exact hassigns.others _ (by decide)
  · exact hassigns.others _ (by decide)
  · exact hassigns.last _ rfl (by decide)
  · exact hassigns.touches.own _ (by decide)

end Juxta
