import Juxta.Proofs.Contents
import Juxta.Proofs.Evaluation.Forgetting
import Juxta.Proofs.Evaluation.Host
import Juxta.Proofs.Parser.Modes

/-!
# Integers stay in range

Integers have 64 bits.  The operators wrap what they make, all but the remainder, which is never
farther from zero than its dividend and on the same side; and the literals of a source are bounded
by the grammar.  So only functions of the host could make an integer that is out of range.

## What is here

* `IsInt64` — the integers of 64 bits; `Operator.isInt64_onInts` — the operators keep to them.
* `Value.InRange` — the value is not an integer out of range; `inRange_applyOperator`.
* `Value.IsSafe` — in addition, a function is one of those that are known to keep integers in range.
* `Host.KeepsRange` — the functions of a host that are known do so; `Host.standard_keepsRange`.
* `Host.KeepsRange.theory` — so does evaluation with them; `Parser.SourceTree.fits` — of every tree
  that a source has.
-/

set_option autoImplicit false
namespace Juxta

/-! ## Integers -/

/-- The integer has 64 bits. -/
def IsInt64 (n : Int) : Prop :=
  -↑(Nat.pow 2 63) ≤ n ∧ n < ↑(Nat.pow 2 63)

instance (n : Int) : Decidable (IsInt64 n) :=
  inferInstanceAs (Decidable (_ ∧ _))

theorem isInt64_wrap (n : Int) : IsInt64 (wrap n) := by
  have hpos : 0 < Nat.pow 2 64 := by decide
  have hhalf : (↑(Nat.pow 2 64) : Int) = 2 * ↑(Nat.pow 2 63) := by decide
  have hlow : -(↑(Nat.pow 2 64) / 2 : Int) ≤ n.bmod (Nat.pow 2 64) := Int.le_bmod hpos
  have hhigh : n.bmod (Nat.pow 2 64) < (↑(Nat.pow 2 64) + 1) / 2 := Int.bmod_lt hpos
  rw [IsInt64, wrap]
  omega

/-- A remainder lies between zero and its dividend, so that it is in range though nothing wraps
it. -/
theorem IsInt64.tmod {a : Int} (ha : IsInt64 a) (b : Int) : IsInt64 (a.tmod b) := by
  have habs : (a.tmod b).natAbs ≤ a.natAbs := by
    rw [Int.natAbs_tmod]
    exact Nat.mod_le _ _
  rw [IsInt64] at ha ⊢
  rcases Int.le_total 0 a with hsign | hsign
  · have hnonneg := Int.tmod_nonneg b hsign
    omega
  · have hnonpos := Int.tmod_nonneg b (Int.neg_nonneg_of_nonpos hsign)
    rw [Int.neg_tmod] at hnonpos
    omega

/-- **The operators keep integers in range**: all but the remainder wrap. -/
theorem Operator.isInt64_onInts {op : Operator} {a b n : Int} (ha : IsInt64 a)
    (h : op.onInts a b = .ok n) : IsInt64 n := by
  cases op with
  | add | sub | mul =>
    cases h
    exact isInt64_wrap _
  | div =>
    rw [onInts] at h
    split at h
    · cases h
    · cases h
      exact isInt64_wrap _
  | mod =>
    rw [onInts] at h
    split at h
    · cases h
    · cases h
      exact ha.tmod b

/-! ## Values -/

/-- The value is not an integer out of range: if its type is that of integers, it holds one of 64
bits. -/
def Value.InRange : Value → Prop
  | int n => IsInt64 n
  | unfit .int _ => False
  | _ => True

theorem Value.InRange.eq_int {v : Value} {content : Node.Payload} (hv : v.InRange)
    (h : v.literal? = some (.int, content)) : ∃ n, v = .int n ∧ content = .int n ∧ IsInt64 n := by
  cases v with
  | int n =>
    cases h
    exact ⟨n, rfl, rfl, hv⟩
  | unfit type content' =>
    cases h
    exact hv.elim
  | _ => cases h

/-- What is made under another type than that of integers is no integer. -/
theorem Operator.inRange_onContents? {op : Operator} {l r : Node.Payload} {type : LiteralType}
    {v : Value} (htype : type ≠ .int) (h : op.onContents? l r type = some (.ok v)) : v.InRange := by
  cases type with
  | int => exact absurd rfl htype
  | float =>
    rw [onContents?] at h
    split at h
    · cases h
      trivial
    · obtain ⟨content, -, hv⟩ := Option.map_eq_some_iff.1 h
      obtain rfl := Except.ok.inj hv
      cases content <;> trivial
  | str =>
    rw [onContents?] at h
    split at h
    · obtain ⟨content, -, hv⟩ := Option.map_eq_some_iff.1 h
      obtain rfl := Except.ok.inj hv
      cases content <;> trivial
    · cases h

/-- An operator makes values in range from such. -/
theorem Operator.inRange_apply {op : Operator} {l r v : Value} (hl : l.InRange) (hr : r.InRange)
    (h : op.apply l r = .ok v) : v.InRange := by
  rw [apply.eq_def] at h
  split at h
  · next a b =>
    cases hints : op.onInts a b with
    | error cause =>
      rw [hints] at h
      cases h
    | ok n =>
      rw [hints] at h
      cases h
      exact isInt64_onInts hl hints
  · cases h
    trivial
  · split at h
    · cases h
      trivial
    · cases h
  · next hints _ _ =>
    -- Two integers are handled above, and integers in range have no other form.
    cases hliterals : op.onLiterals? l r with
    | none =>
      rw [hliterals] at h
      cases h
    | some result =>
      rw [hliterals, Option.getD_some] at h
      subst h
      obtain ⟨type, p, q, hleft, hright, hcontents⟩ := onLiterals?_eq_some hliterals
      refine inRange_onContents? (fun hint => ?_) hcontents
      subst hint
      obtain ⟨a, rfl, -, -⟩ := hl.eq_int hleft
      obtain ⟨b, rfl, -, -⟩ := hr.eq_int hright
      exact hints a b rfl rfl

theorem inRange_applyOperator {symbol : String} {l r v : Value} (hl : l.InRange) (hr : r.InRange)
    (h : applyOperator symbol l r = .ok v) : v.InRange := by
  rw [applyOperator] at h
  split at h
  · exact Operator.inRange_apply hl hr h
  · cases h

/-! ## Hosts -/

/-- The value is in range, and if it is a function, it is one of those that are known. -/
def Value.IsSafe (known : Native → Prop) : Value → Prop
  | int n => IsInt64 n
  | unfit .int _ => False
  | native f => known f
  | _ => True

theorem Value.IsSafe.inRange {known : Native → Prop} {v : Value} (h : v.IsSafe known) :
    v.InRange := by
  cases v with
  | int n => exact h
  | unfit type content =>
    cases type with
    | int => exact h
    | float | str => trivial
  | nil | float | str | bool | quoted | native => trivial

/-- A value that a leaf can stand for is no function. -/
theorem Value.InRange.isSafe {known : Native → Prop} {v : Value} (h : v.InRange)
    (hliteral : v.literal?.isSome = true) : v.IsSafe known := by
  cases v with
  | int n => exact h
  | unfit type content =>
    cases type with
    | int => exact h
    | float | str => trivial
  | float | str => trivial
  | nil | bool | quoted | native => cases hliteral

/-- If the interrupt is an exit, its code is an integer in range. -/
def Interrupt.InRange : Interrupt → Prop
  | exit code => ∃ n, code = .int n ∧ IsInt64 n
  | failure _ | defect _ => True

/-- The functions of a host that are known keep integers in range: from values in range they make
no other value, they bind no other, and they exit with no other code. -/
def Host.KeepsRange (h : Host) (known : Native → Prop) : Prop :=
  ∀ (frame : Nat) (f : Native) (args : List Value), known f → (∀ v ∈ args, v.IsSafe known) →
    (h.run frame f args).Keeps (·.env.All (Value.IsSafe known)) (Value.IsSafe known)
      Interrupt.InRange

section

variable {known : Native → Prop}

/-- The functions that the evaluator knows keep integers in range.  The number of arguments is the
only integer that any of them makes, and it is not bounded. -/
theorem Host.standard_keepsRange (hknown : ∀ f, known f → f.action ≠ .count) :
    standard.KeepsRange known := by
  intro frame f args hf hargs
  show (f.action.run f.name args).Keeps _ _ _
  cases haction : f.action with
  | printLine =>
    refine (Eval.Keeps.ofChange ?_).bind fun _ _ => .pure trivial
    exact fun _ hm => hm
  | quit =>
    rcases args with _ | ⟨v, _ | ⟨w, args⟩⟩
    · exact .fail trivial
    · simp only [Action.run]
      split
      · next code hcode =>
        obtain ⟨n, -, rfl, hn⟩ := (hargs v List.mem_cons_self).inRange.eq_int hcode
        exact .throw ⟨n, rfl, hn⟩
      · exact .fail trivial
    · exact .fail trivial
  | nothing => exact .pure trivial
  | foreign shown => exact .fail trivial
  | count => exact absurd haction (hknown f hf)
  | typeOfFirst => cases args <;> exact .pure trivial
  | last => exact .pure (getLast_keeps trivial hargs)

/-- **Evaluation keeps integers in range** if the functions of the host do. -/
theorem Host.KeepsRange.theory {h : Host} (hh : h.KeepsRange known) (frame : Nat) :
    h.Theory frame (fun _ => True) (·.env.All (Value.IsSafe known)) (Value.IsSafe known)
      Interrupt.InRange where
  nil := trivial
  quoted _ := trivial
  lookup _ _ _ hm hget := hm.get? hget
  define _ name _ _ hv hm := hm.define frame name hv
  operator _ _ _ _ hl hr h :=
    (inRange_applyOperator hl.inRange hr.inRange h).isSafe (literal?_of_applyOperator h)
  run f vs hf hvs := hh frame f vs hf hvs
  failure _ := trivial
  defect _ := trivial

end

/-! ## Trees of sources -/

mutual

theorem Node.mem_subtrees_of_mem_live {d : Node} : ∀ {n : Node}, d ∈ n.live → d ∈ n.subtrees
  | .leaf k p s, h => by
    rw [live] at h
    split at h
    · cases h
    · rwa [subtrees]
  | .branch k cs s, h => by
    rw [live] at h
    split at h
    · cases h
    · rw [subtrees]
      rcases List.mem_cons.1 h with h | h
      · exact List.mem_cons.2 (.inl h)
      · exact List.mem_cons_of_mem _ (mem_subtreesOfAll_of_mem_liveOfAll h)

theorem Node.mem_subtreesOfAll_of_mem_liveOfAll {d : Node} :
    ∀ {ns : List Node}, d ∈ liveOfAll ns → d ∈ subtreesOfAll ns
  | [], h => h
  | n :: ns, h => by
    rw [liveOfAll] at h
    rw [subtreesOfAll]
    rcases List.mem_append.1 h with h | h
    · exact List.mem_append_left _ (mem_subtrees_of_mem_live h)
    · exact List.mem_append_right _ (mem_subtreesOfAll_of_mem_liveOfAll h)

end

namespace Parser

/-- The literals of the grammar are in range. -/
theorem HoldsPayload.isSafe {known : Native → Prop} {n : Node} {v : Value} (h : HoldsPayload n)
    (hv : n.literal? = some v) : v.IsSafe known := by
  rw [Node.literal?.eq_def] at hv
  split at hv
  · next p start =>
    obtain ⟨z, hz, hlow, hhigh⟩ := h.integer rfl
    obtain rfl := Option.some.inj hz
    obtain rfl := Option.some.inj hv
    have hpow : (↑(Nat.pow 2 63) : Int) = maxInteger + 1 := by decide
    show IsInt64 z
    rw [IsInt64]
    omega
  · next p start =>
    obtain rfl := Option.some.inj hv
    cases p <;> trivial
  · next p start =>
    obtain rfl := Option.some.inj hv
    cases p <;> trivial
  · cases hv

theorem SourceTree.holdsPayload {length : Nat} {node : Node} (h : SourceTree length node) :
    ∀ n ∈ node.subtrees, HoldsPayload n := by
  cases h with
  | expression hshape _ => exact hshape.holdsPayload
  | statements hk hshape _ =>
    refine forall_mem_subtrees_branch (.branch ?_ _ _) fun n hn => (hshape n hn).holdsPayload
    rcases hk with rfl | rfl <;> rfl

/-- All live nodes of a source fit. -/
theorem SourceTree.fits {known : Native → Prop} {length : Nat} {node : Node}
    (h : SourceTree length node) :
    ∀ n ∈ node.live, n.Fits (fun _ => True) (Value.IsSafe known) := by
  intro n hn
  refine ⟨fun _ _ => trivial, fun v hv => ?_⟩
  exact (h.holdsPayload n (Node.mem_subtrees_of_mem_live hn)).isSafe hv

end Parser
end Juxta
