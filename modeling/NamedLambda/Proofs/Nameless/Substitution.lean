/-
NamedLambda/Proofs/Nameless/Substitution.lean

Substitution in nameless terms.  Terms are put for all indices at once: a substitution is a
function from indices to terms, and under a binder it keeps index 0 and shifts the terms that it
puts for the others.  A contraction instantiates the body of an abstraction, that is, it puts the
argument for index 0 and counts the remaining indices down.

The laws come in the usual order, renaming with renaming, renaming with substitution in both
orders, then substitution with substitution (`subst_subst`); each of them is used under the binder
in the proof of the next.  `subst_instantiate` is the one that reduction needs: instantiation
commutes with substitution.
-/
import Mathlib.Logic.Function.Basic
import NamedLambda.Term.Nameless

namespace NamedLambda

namespace Nameless

/-! ### Renaming of indices -/

/-- A renaming of indices as it acts under one more binder. -/
def liftIndex (ξ : Nat → Nat) : Nat → Nat
  | 0 => 0
  | i + 1 => ξ i + 1

/-- The term with its indices renamed. -/
def rename (ξ : Nat → Nat) : Nameless → Nameless
  | bound i => bound (ξ i)
  | free x => free x
  | abs b => abs (b.rename (liftIndex ξ))
  | app f a => app (f.rename ξ) (a.rename ξ)

/-- The term under one more binder, to which none of its indices refers. -/
def shift (t : Nameless) : Nameless :=
  t.rename Nat.succ

theorem liftIndex_comp (ζ ξ : Nat → Nat) :
    liftIndex ζ ∘ liftIndex ξ = liftIndex (ζ ∘ ξ) := by
  funext i
  cases i <;> rfl

theorem rename_rename (t : Nameless) (ξ ζ : Nat → Nat) :
    (t.rename ξ).rename ζ = t.rename (ζ ∘ ξ) := by
  induction t generalizing ξ ζ with
  | bound i => rfl
  | free x => rfl
  | abs b ih => simp only [rename, ih, liftIndex_comp]
  | app f a ihf iha => simp only [rename, ihf, iha]

theorem rename_shift (t : Nameless) (ξ : Nat → Nat) :
    t.shift.rename (liftIndex ξ) = (t.rename ξ).shift := by
  rw [shift, shift, rename_rename, rename_rename]
  rfl

/-! ### Substitution for indices -/

/-- A substitution as it acts under one more binder. -/
def lift (σ : Nat → Nameless) : Nat → Nameless
  | 0 => bound 0
  | i + 1 => (σ i).shift

/-- The term with `σ i` put for each index `i`. -/
def subst (σ : Nat → Nameless) : Nameless → Nameless
  | bound i => σ i
  | free x => free x
  | abs b => abs (b.subst (lift σ))
  | app f a => app (f.subst σ) (a.subst σ)

theorem lift_bound : lift bound = bound := by
  funext i
  cases i <;> rfl

@[simp] theorem subst_bound (t : Nameless) : t.subst bound = t := by
  induction t with
  | bound i => rfl
  | free x => rfl
  | abs b ih => rw [subst, lift_bound, ih]
  | app f a ihf iha => rw [subst, ihf, iha]

theorem lift_comp_liftIndex (σ : Nat → Nameless) (ξ : Nat → Nat) :
    lift σ ∘ liftIndex ξ = lift (σ ∘ ξ) := by
  funext i
  cases i <;> rfl

theorem subst_rename (t : Nameless) (ξ : Nat → Nat) (σ : Nat → Nameless) :
    (t.rename ξ).subst σ = t.subst (σ ∘ ξ) := by
  induction t generalizing ξ σ with
  | bound i => rfl
  | free x => rfl
  | abs b ih => simp only [rename, subst, ih, lift_comp_liftIndex]
  | app f a ihf iha => simp only [rename, subst, ihf, iha]

/-- A renaming is the substitution of the renamed indices. -/
theorem rename_eq_subst (t : Nameless) (ξ : Nat → Nat) :
    t.rename ξ = t.subst (bound ∘ ξ) := by
  have h := subst_rename t ξ bound
  rwa [subst_bound] at h

theorem rename_lift (σ : Nat → Nameless) (ξ : Nat → Nat) :
    (fun i => (lift σ i).rename (liftIndex ξ)) = lift fun i => (σ i).rename ξ := by
  funext i
  cases i with
  | zero => rfl
  | succ i => exact rename_shift (σ i) ξ

theorem rename_subst (t : Nameless) (σ : Nat → Nameless) (ξ : Nat → Nat) :
    (t.subst σ).rename ξ = t.subst fun i => (σ i).rename ξ := by
  induction t generalizing σ ξ with
  | bound i => rfl
  | free x => rfl
  | abs b ih => simp only [rename, subst, ih, rename_lift]
  | app f a ihf iha => simp only [rename, subst, ihf, iha]

theorem subst_shift (t : Nameless) (σ : Nat → Nameless) :
    t.shift.subst (lift σ) = (t.subst σ).shift := by
  rw [shift, shift, subst_rename, rename_subst]
  rfl

theorem subst_lift (σ τ : Nat → Nameless) :
    (fun i => (lift σ i).subst (lift τ)) = lift fun i => (σ i).subst τ := by
  funext i
  cases i with
  | zero => rfl
  | succ i => exact subst_shift (σ i) τ

theorem subst_subst (t : Nameless) (σ τ : Nat → Nameless) :
    (t.subst σ).subst τ = t.subst fun i => (σ i).subst τ := by
  induction t generalizing σ τ with
  | bound i => rfl
  | free x => rfl
  | abs b ih => simp only [subst, ih, subst_lift]
  | app f a ihf iha => simp only [subst, ihf, iha]

/-! ### Instantiation -/

/-- The substitution of `a` for index 0, the other indices being counted down. -/
def push (a : Nameless) : Nat → Nameless
  | 0 => a
  | i + 1 => bound i

/-- The body `b` of an abstraction with the argument `a` put for its parameter. -/
def instantiate (b a : Nameless) : Nameless :=
  b.subst (push a)

@[simp] theorem instantiate_shift (t a : Nameless) : t.shift.instantiate a = t := by
  rw [instantiate, shift, subst_rename]
  exact subst_bound t

theorem subst_instantiate (b a : Nameless) (σ : Nat → Nameless) :
    (b.instantiate a).subst σ = (b.subst (lift σ)).instantiate (a.subst σ) := by
  rw [instantiate, instantiate, subst_subst, subst_subst]
  congr 1
  funext i
  cases i with
  | zero => rfl
  | succ i => exact (instantiate_shift (σ i) (a.subst σ)).symm

theorem rename_instantiate (b a : Nameless) (ξ : Nat → Nat) :
    (b.instantiate a).rename ξ = (b.rename (liftIndex ξ)).instantiate (a.rename ξ) := by
  -- As a substitution, a renaming is lifted in the same way.
  have hl : bound ∘ liftIndex ξ = lift (bound ∘ ξ) := by
    funext i
    cases i <;> rfl
  rw [rename_eq_subst, rename_eq_subst b, rename_eq_subst a, subst_instantiate, hl]

/-! ### Related substitutions -/

variable {R : Nameless → Nameless → Prop}

/-- A relation that shifts along keeps holding under one more binder. -/
theorem lift_related (hbound : R (bound 0) (bound 0))
    (hshift : ∀ t u, R t u → R t.shift u.shift) {σ τ : Nat → Nameless}
    (h : ∀ i, R (σ i) (τ i)) (i : Nat) : R (lift σ i) (lift τ i) := by
  cases i with
  | zero => exact hbound
  | succ i => exact hshift (σ i) (τ i) (h i)

theorem push_related (hbound : ∀ i, R (bound i) (bound i)) {a a' : Nameless} (h : R a a')
    (i : Nat) : R (push a i) (push a' i) := by
  cases i with
  | zero => exact h
  | succ i => exact hbound i

/-! ### Free names -/

/-- The term with `φ x` put for each free name `x`.  The indices of what is put in are left as they
are, so this is meant for terms that refer to no binder outside themselves. -/
def replaceFree (φ : Name → Nameless) : Nameless → Nameless
  | bound i => bound i
  | free x => φ x
  | abs b => abs (b.replaceFree φ)
  | app f a => app (f.replaceFree φ) (a.replaceFree φ)

/-- Every index refers to a binder of the term itself or to one of `n` further ones around it. -/
def ClosedUnder (n : Nat) : Nameless → Prop
  | bound i => i < n
  | free _ => True
  | abs b => b.ClosedUnder (n + 1)
  | app f a => f.ClosedUnder n ∧ a.ClosedUnder n

theorem ClosedUnder.rename_eq {t : Nameless} {n : Nat} (h : t.ClosedUnder n) {ξ : Nat → Nat}
    (hξ : ∀ i < n, ξ i = i) : t.rename ξ = t := by
  induction t generalizing n ξ with
  | bound i => rw [rename, hξ i h]
  | free x => rfl
  | abs b ih =>
      have hb : b.rename (liftIndex ξ) = b := by
        refine ih h fun i hi => ?_
        cases i with
        | zero => rfl
        | succ i => exact congrArg (· + 1) (hξ i (Nat.lt_of_succ_lt_succ hi))
      rw [rename, hb]
  | app f a ihf iha => rw [rename, ihf h.1 hξ, iha h.2 hξ]

theorem ClosedUnder.rename_of_closed {t : Nameless} (h : t.ClosedUnder 0) (ξ : Nat → Nat) :
    t.rename ξ = t :=
  h.rename_eq fun i hi => absurd hi (Nat.not_lt_zero i)

theorem ClosedUnder.rename {t : Nameless} {m n : Nat} (h : t.ClosedUnder n) {ξ : Nat → Nat}
    (hξ : ∀ i < n, ξ i < m) : (t.rename ξ).ClosedUnder m := by
  induction t generalizing m n ξ with
  | bound i => exact hξ i h
  | free x => trivial
  | abs b ih =>
      refine ih h fun i hi => ?_
      cases i with
      | zero => exact Nat.succ_pos m
      | succ i => exact Nat.succ_lt_succ (hξ i (Nat.lt_of_succ_lt_succ hi))
  | app f a ihf iha => exact ⟨ihf h.1 hξ, iha h.2 hξ⟩

theorem ClosedUnder.shift {t : Nameless} {n : Nat} (h : t.ClosedUnder n) :
    t.shift.ClosedUnder (n + 1) :=
  h.rename fun _ hi => Nat.succ_lt_succ hi

/-- Renaming indices and putting closed terms for free names do not interfere. -/
theorem replaceFree_rename (t : Nameless) {φ : Name → Nameless} (hφ : ∀ x, (φ x).ClosedUnder 0)
    (ξ : Nat → Nat) : (t.rename ξ).replaceFree φ = (t.replaceFree φ).rename ξ := by
  induction t generalizing ξ with
  | bound i => rfl
  | free x =>
      -- What is put in has no index that the renaming could touch.
      exact ((hφ x).rename_of_closed ξ).symm
  | abs b ih => simp only [rename, replaceFree, ih]
  | app f a ihf iha => simp only [rename, replaceFree, ihf, iha]

end Nameless

end NamedLambda
