import Juxta.Environment

/-!
# What an environment holds

A property of values that all values of an environment have stays true of all when a value that has
it is bound, and it is true of every value that is looked up.

## What is here

* `Bindings.All`, `Environment.All` — all values that are bound satisfy a property.
* `Environment.All.define`, `Environment.All.setSource`, `Environment.All.get?` — one rule for each
  operation.
* `Builtins.all_environment` — the property of a fresh root frame.
-/

set_option autoImplicit false
namespace Juxta

variable {Q R : Value → Prop}

/-- All names are bound to values that satisfy the property. -/
def Bindings.All (Q : Value → Prop) (b : Bindings) : Prop :=
  ∀ entry ∈ b.entries, Q entry.2

/-- All frames bind only values that satisfy the property. -/
def Environment.All (Q : Value → Prop) (env : Environment) : Prop :=
  ∀ f ∈ env.frames, f.bindings.All Q

theorem Bindings.All.set {b : Bindings} (h : b.All Q) (name : Name) {v : Value} (hv : Q v) :
    (b.set name v).All Q := by
  obtain ⟨entries⟩ := b
  rw [All] at h ⊢
  rw [Bindings.set]
  fun_induction setEntry name v entries with
  | case1 => exact List.forall_mem_singleton.2 hv
  | case2 => exact List.forall_mem_cons.2 ⟨hv, (List.forall_mem_cons.1 h).2⟩
  | case3 n w rest _ ih =>
    obtain ⟨hw, hrest⟩ := List.forall_mem_cons.1 h
    exact List.forall_mem_cons.2 ⟨hw, ih hrest⟩

namespace Environment

variable {env : Environment}

theorem all_updateIn {change : Frame → Frame} {frames : List Frame} {i : Nat}
    (h : All Q ⟨frames⟩) (hchange : ∀ f ∈ frames, (change f).bindings.All Q) :
    All Q ⟨updateIn change frames i⟩ := by
  induction frames with
  | nil => exact h
  | cons f older ih =>
    obtain ⟨hf, holder⟩ := List.forall_mem_cons.1 h
    obtain ⟨hchangef, hchange⟩ := List.forall_mem_cons.1 hchange
    rw [updateIn]
    split
    · exact List.forall_mem_cons.2 ⟨hchangef, holder⟩
    · exact List.forall_mem_cons.2 ⟨hf, ih holder hchange⟩

theorem All.define (h : env.All Q) (i : Nat) (name : Name) {v : Value} (hv : Q v) :
    (env.define i name v).All Q :=
  all_updateIn h fun f hf => (h f hf).set name hv

theorem All.setSource (h : env.All Q) (i : Nat) (source : String) :
    (env.setSource i source).All Q :=
  all_updateIn h h

theorem All.get? (h : env.All Q) {i : Nat} {name : Name} {v : Value}
    (hget : env.get? i name = some v) : Q v := by
  obtain ⟨frames⟩ := env
  rw [Environment.get?] at hget
  induction frames generalizing i with
  | nil => cases hget
  | cons f older ih =>
    obtain ⟨hf, holder⟩ := List.forall_mem_cons.1 h
    rw [lookupIn] at hget
    split at hget
    · split at hget
      · next w hw =>
        obtain rfl := Option.some.inj hget
        obtain ⟨front, back, hentries, -⟩ := List.lookup_eq_some_iff.1 hw
        refine hf (name, w) ?_
        rw [hentries]
        exact List.mem_append_right _ List.mem_cons_self
      · exact ih holder hget
      · cases hget
    · exact ih holder hget

theorem All.mono (h : env.All Q) (hQ : ∀ v, Q v → R v) : env.All R :=
  fun f hf entry hentry => hQ entry.2 (h f hf entry hentry)

end Environment

/-- A fresh root frame binds constants and functions, and nothing else. -/
theorem Builtins.all_environment {b : Builtins} (hconstants : ∀ entry ∈ b.constants, Q entry.2)
    (hnatives : ∀ f ∈ b.natives, Q (.native f)) (source : Option String) :
    (b.environment source).All Q := by
  refine List.forall_mem_singleton.2 ?_
  show b.bindings.All Q
  refine List.foldlRecOn b.natives _ ?_ fun bs hbs f hf => hbs.set _ (hnatives f hf)
  refine List.foldlRecOn b.constants _ (List.forall_mem_nil _) fun bs hbs entry hentry => ?_
  exact hbs.set _ (hconstants entry hentry)

end Juxta
