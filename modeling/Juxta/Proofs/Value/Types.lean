import Juxta.Proofs.Evaluation.FailingPath

/-!
# Operators and types

There are no conversions: an operator applies to two values of one type, and its result is of that
type.  Where it does not apply, or where it divides by zero, it says so.

## What is here

* `Operator.types_of_apply` — the types of the operands and of the result.
* `Refuses` — why an operator does not give a result; `refuses_of_applyOperator`.
-/

set_option autoImplicit false
namespace Juxta

variable {op : Operator} {l r v : Value} {symbol : String} {cause : Cause}

/-! ## Results -/

theorem Value.type_of_literal? {type : LiteralType} {content : Node.Payload}
    (h : v.literal? = some (type, content)) : v.type = type.valueType := by
  cases v <;> cases h <;> rfl

theorem Value.type_ofLiteral (type : LiteralType) (content : Node.Payload) :
    (ofLiteral type content).type = type.valueType :=
  type_of_literal? (literal?_ofLiteral type content)

/-- The two operands and the result are of the given type, which is that of strings only for `+`. -/
structure Operator.AppliesIn (op : Operator) (l r v : Value) (type : LiteralType) : Prop where
  left : l.type = type.valueType
  right : r.type = type.valueType
  result : v.type = type.valueType
  add : type = .str → op = .add

/-- A result has the type of the contents. -/
theorem Operator.type_of_onContents? {p q : Node.Payload} {type : LiteralType}
    (h : op.onContents? p q type = some (.ok v)) :
    v.type = type.valueType ∧ (type = .str → op = .add) := by
  cases type with
  | int =>
    refine ⟨?_, fun heq => absurd heq (by decide)⟩
    simp only [onContents?, onIntContents?] at h
    split at h
    · cases h
    · split at h
      · obtain ⟨n, rfl⟩ := onInts_map_eq_ok (Option.some.inj h)
        rfl
      · cases h
        rfl
      · cases h
  | float =>
    refine ⟨?_, fun heq => absurd heq (by decide)⟩
    simp only [onContents?] at h
    split at h
    · cases h
      rfl
    · obtain ⟨content, -, hv⟩ := Option.map_eq_some_iff.1 h
      obtain rfl := Except.ok.inj hv
      exact Value.type_ofLiteral _ _
  | str =>
    simp only [onContents?] at h
    split at h
    · next hop =>
      obtain ⟨content, -, hv⟩ := Option.map_eq_some_iff.1 h
      obtain rfl := Except.ok.inj hv
      exact ⟨Value.type_ofLiteral _ _, fun _ => hop⟩
    · cases h

/-- **An operator applies to values of one type, and its result is of that type.** -/
theorem Operator.types_of_apply (h : op.apply l r = .ok v) :
    ∃ type, op.AppliesIn l r v type := by
  rw [apply.eq_def] at h
  split at h
  · obtain ⟨n, rfl⟩ := onInts_map_eq_ok h
    exact ⟨.int, rfl, rfl, rfl, fun heq => absurd heq (by decide)⟩
  · cases h
    exact ⟨.float, rfl, rfl, rfl, fun heq => absurd heq (by decide)⟩
  · split at h
    · next hop =>
      cases h
      exact ⟨.str, rfl, rfl, rfl, fun _ => hop⟩
    · cases h
  · cases hliterals : op.onLiterals? l r with
    | none =>
      rw [hliterals] at h
      cases h
    | some result =>
      rw [hliterals, Option.getD_some] at h
      subst h
      obtain ⟨type, p, q, hl, hr, hcontents⟩ := onLiterals?_eq_some hliterals
      obtain ⟨hv, hadd⟩ := type_of_onContents? hcontents
      exact ⟨type, Value.type_of_literal? hl, Value.type_of_literal? hr, hv, hadd⟩

/-- The same for the operator with a symbol, which is the symbol of one. -/
theorem types_of_applyOperator (h : applyOperator symbol l r = .ok v) :
    ∃ (op : Operator) (type : LiteralType), op.symbol = symbol ∧ op.AppliesIn l r v type := by
  rw [applyOperator] at h
  split at h
  · next op hop =>
    obtain ⟨type, happlies⟩ := Operator.types_of_apply h
    exact ⟨op, type, by simpa using List.find?_some hop, happlies⟩
  · cases h

/-! ## Failures -/

/-- The value is an integer, and it counts as zero. -/
def Value.IsZero (v : Value) : Prop :=
  ∃ content, v.literal? = some (.int, content) ∧ content.number?.any Number.isZero = true

theorem Value.isZero_int {n : Int} : (int n).IsZero ↔ n = 0 := by
  simp [IsZero, literal?, Node.Payload.number?, Number.isZero, Number.equal]

/-- Why the operator with a symbol does not give a result for two values: it does not apply to their
types, or it divides an integer by the integer zero. -/
inductive Refuses (symbol : String) (l r : Value) : Cause → Prop
  | unsupported : Refuses symbol l r (.unsupportedOperator symbol l.type r.type)
  | zeroDivision (hsymbol : symbol = "/" ∨ symbol = "%") (hl : l.type = .int) (hr : r.IsZero) :
      Refuses symbol l r .zeroDivision

theorem Operator.divides_of_onInts_map {a b : Int}
    (h : (op.onInts a b).map Value.int = .error cause) : (op = .div ∨ op = .mod) ∧ b = 0 := by
  cases op with
  | add | sub | mul => cases h
  | div | mod =>
    rw [onInts] at h
    split at h
    · next hb => exact ⟨by simp, hb⟩
    · cases h

theorem Operator.symbol_of_divides (h : op = .div ∨ op = .mod) :
    op.symbol = "/" ∨ op.symbol = "%" := by
  rcases h with rfl | rfl
  · exact .inl rfl
  · exact .inr rfl

/-- Where contents do not fit their type, an integer is divided by zero, or nothing fails. -/
theorem Operator.refuses_of_onLiterals? (h : op.onLiterals? l r = some (.error cause)) :
    Refuses op.symbol l r cause := by
  obtain rfl := onLiterals?_eq_error h
  obtain ⟨type, p, q, hl, hr, h⟩ := onLiterals?_eq_some h
  cases type with
  | int =>
    rw [onContents?, onIntContents?.eq_def] at h
    split at h
    · next hzero =>
      simp only [Bool.and_eq_true, Bool.or_eq_true, decide_eq_true_eq] at hzero
      exact .zeroDivision (symbol_of_divides hzero.1) (Value.type_of_literal? hl) ⟨q, hr, hzero.2⟩
    · split at h
      · next a b _ hb _ _ =>
        obtain ⟨hop, rfl⟩ := divides_of_onInts_map (Option.some.inj h)
        exact .zeroDivision (symbol_of_divides hop) (Value.type_of_literal? hl)
          ⟨q, hr, by rw [hb]; rfl⟩
      · cases h
      · cases h
  | float =>
    rw [onContents?] at h
    split at h
    · cases h
    · obtain ⟨_, -, h⟩ := Option.map_eq_some_iff.1 h
      cases h
  | str =>
    rw [onContents?] at h
    split at h
    · obtain ⟨_, -, h⟩ := Option.map_eq_some_iff.1 h
      cases h
    · cases h

theorem Operator.refuses_of_apply (h : op.apply l r = .error cause) :
    Refuses op.symbol l r cause := by
  rw [apply.eq_def] at h
  split at h
  · have hcause := onInts_map_eq_error h
    obtain ⟨hop, hzero⟩ := divides_of_onInts_map h
    subst hcause
    exact .zeroDivision (symbol_of_divides hop) rfl (Value.isZero_int.2 hzero)
  · cases h
  · split at h
    · cases h
    · cases h
      exact .unsupported
  · cases hliterals : op.onLiterals? l r with
    | none =>
      rw [hliterals] at h
      cases h
      exact .unsupported
    | some result =>
      rw [hliterals] at h
      obtain rfl : result = .error cause := h
      exact refuses_of_onLiterals? hliterals

/-- **An operator that gives no result does not apply to the types of its operands, or it divides an
integer by zero.** -/
theorem refuses_of_applyOperator (h : applyOperator symbol l r = .error cause) :
    Refuses symbol l r cause := by
  rw [applyOperator] at h
  split at h
  · next op hop =>
    have hsymbol : op.symbol = symbol := by simpa using List.find?_some hop
    exact hsymbol ▸ Operator.refuses_of_apply h
  · cases h
    exact .unsupported

end Juxta
