/-
NamedLambda/Proofs/Term/Denotation.lean

What a named term denotes when its free names stand for given nameless terms.

The nameless form of a term under a list of binders is a special case: each binder stands for its
index and every other name for itself.  The general case is the one to reason about, because a
substitution in a named term changes nothing but what one name stands for, and because renaming and
substitution of indices act on a denotation through the values of the names alone.

Main facts: `denote_congr` says that only the free variables of a term count, and
`denote_bind_instantiate` that a body under its binder is instantiated by giving the binder a value.
-/
import NamedLambda.Proofs.Nameless.Substitution

namespace NamedLambda

open Nameless

/-- What each name stands for. -/
abbrev Valuation := Name → Nameless

namespace Valuation

/-- The valuation under the binder `x`. -/
def bind (ρ : Valuation) (x : Name) : Valuation := fun y =>
  if y = x then bound 0 else (ρ y).shift

@[simp] theorem bind_self (ρ : Valuation) (x : Name) : ρ.bind x x = bound 0 :=
  if_pos rfl

theorem bind_of_ne (ρ : Valuation) {x y : Name} (h : y ≠ x) : ρ.bind x y = (ρ y).shift :=
  if_neg h

/-- Under a list of binders, the innermost first, a bound name stands for its index. -/
def ofBinders : List Name → Valuation
  | [] => free
  | x :: xs => (ofBinders xs).bind x

theorem ofBinders_eq (binders : List Name) (x : Name) :
    ofBinders binders x =
      match binders.idxOf? x with
      | some i => bound i
      | none => free x := by
  induction binders with
  | nil => rfl
  | cons y ys ih =>
      rw [ofBinders, List.idxOf?_cons]
      by_cases h : x = y
      · subst h
        simp
      · rw [bind_of_ne _ h, ih, if_neg (by simpa using Ne.symm h)]
        rcases ys.idxOf? x with - | i <;> rfl

/-- A valuation all of whose values are variables. -/
def Atomic (ρ : Valuation) : Prop :=
  ∀ x, (∃ i, ρ x = bound i) ∨ ∃ y, ρ x = free y

theorem atomic_free : Atomic free := fun x => Or.inr ⟨x, rfl⟩

theorem Atomic.bind {ρ : Valuation} (h : ρ.Atomic) (x : Name) : (ρ.bind x).Atomic := by
  intro y
  by_cases hy : y = x
  · exact Or.inl ⟨0, if_pos hy⟩
  · rw [bind_of_ne ρ hy]
    rcases h y with ⟨i, hi⟩ | ⟨z, hz⟩
    · exact Or.inl ⟨i + 1, by rw [hi]; rfl⟩
    · exact Or.inr ⟨z, by rw [hz]; rfl⟩

/-- What is the same for all variables is the same for all values. -/
theorem Atomic.apply_eq {α : Type} {ρ : Valuation} (h : ρ.Atomic) {F : Nameless → α} {a : α}
    (hbound : ∀ i, F (bound i) = a) (hfree : ∀ y, F (free y) = a) (x : Name) : F (ρ x) = a := by
  rcases h x with ⟨i, hi⟩ | ⟨y, hy⟩
  · rw [hi, hbound]
  · rw [hy, hfree]

end Valuation

namespace Term

open NamedLambda.Valuation

/-- The nameless term that a term denotes under a valuation. -/
def denote (ρ : Valuation) : Term → Nameless
  | var x => ρ x
  | abs x b => .abs (b.denote (ρ.bind x))
  | app f a => .app (f.denote ρ) (a.denote ρ)

theorem namelessUnder_eq_denote (t : Term) (binders : List Name) :
    t.namelessUnder binders = t.denote (ofBinders binders) := by
  induction t generalizing binders with
  | var x => exact (ofBinders_eq binders x).symm
  | abs x b ih => rw [namelessUnder, ih, denote, ofBinders]
  | app f a ihf iha => rw [namelessUnder, ihf, iha, denote]

/-- The nameless form of a term is its denotation when every name stands for itself. -/
theorem nameless_eq_denote (t : Term) : t.nameless = t.denote free :=
  namelessUnder_eq_denote t []

theorem alphaEq_iff {t u : Term} : t.alphaEq u ↔ t.nameless = u.nameless :=
  decide_eq_true_iff

/-- The denotation of a term depends on the values of its free variables only. -/
theorem denote_congr {t : Term} {ρ ρ' : Valuation} (h : ∀ x, t.occursFree x → ρ x = ρ' x) :
    t.denote ρ = t.denote ρ' := by
  induction t generalizing ρ ρ' with
  | var x => exact h x (by simp [occursFree])
  | abs x b ih =>
      rw [denote, denote]
      congr 1
      refine ih fun y hy => ?_
      by_cases hyx : y = x
      · rw [hyx, bind_self, bind_self]
      · -- A free variable of the body other than the parameter is free in the abstraction.
        have hfree : (abs x b).occursFree y := by simp [occursFree, hy, Ne.symm hyx]
        rw [bind_of_ne ρ hyx, bind_of_ne ρ' hyx, h y hfree]
  | app f a ihf iha =>
      have hf : f.denote ρ = f.denote ρ' := ihf fun x hx => h x (by simp [occursFree, hx])
      have ha : a.denote ρ = a.denote ρ' := iha fun x hx => h x (by simp [occursFree, hx])
      rw [denote, denote, hf, ha]

/-! ### Operations on indices act on the values -/

theorem rename_denote (t : Term) (ρ : Valuation) (ξ : Nat → Nat) :
    (t.denote ρ).rename ξ = t.denote fun x => (ρ x).rename ξ := by
  induction t generalizing ρ ξ with
  | var x => rfl
  | abs x b ih =>
      rw [denote, denote, Nameless.rename, ih]
      congr 2
      funext y
      by_cases hy : y = x
      · rw [hy, bind_self, bind_self]
        rfl
      · rw [bind_of_ne ρ hy, bind_of_ne _ hy, rename_shift]
  | app f a ihf iha => rw [denote, denote, Nameless.rename, ihf, iha]

theorem subst_denote (t : Term) (ρ : Valuation) (σ : Nat → Nameless) :
    (t.denote ρ).subst σ = t.denote fun x => (ρ x).subst σ := by
  induction t generalizing ρ σ with
  | var x => rfl
  | abs x b ih =>
      rw [denote, denote, Nameless.subst, ih]
      congr 2
      funext y
      by_cases hy : y = x
      · rw [hy, bind_self, bind_self]
        rfl
      · rw [bind_of_ne ρ hy, bind_of_ne _ hy, subst_shift]
  | app f a ihf iha => rw [denote, denote, Nameless.subst, ihf, iha]

/-- A term denotes the same, but for the shift, under a binder that it does not mention. -/
theorem denote_bind_of_not_occursFree {t : Term} {x : Name} (h : ¬ t.occursFree x)
    (ρ : Valuation) : t.denote (ρ.bind x) = (t.denote ρ).shift := by
  rw [shift, rename_denote]
  -- The shift acts on the values, which is what the binder does to all names but its own.
  refine denote_congr fun y hy => ?_
  have hyx : y ≠ x := fun e => h (e ▸ hy)
  exact bind_of_ne ρ hyx

/-- Instantiating what a body denotes under its binder gives the binder a value. -/
theorem denote_bind_instantiate (b : Term) (ρ : Valuation) (x : Name) (v : Nameless) :
    (b.denote (ρ.bind x)).instantiate v = b.denote (Function.update ρ x v) := by
  rw [instantiate, subst_denote]
  congr 1
  funext y
  by_cases hy : y = x
  · subst hy
    rw [bind_self, Function.update_self]
    rfl
  · rw [bind_of_ne ρ hy, Function.update_of_ne hy]
    exact instantiate_shift (ρ y) v

/-! ### Free names and closedness -/

theorem closedUnder_denote {t : Term} {ρ : Valuation} {n : Nat}
    (hρ : ∀ x, (ρ x).ClosedUnder n) : (t.denote ρ).ClosedUnder n := by
  induction t generalizing ρ n with
  | var x => exact hρ x
  | abs x b ih =>
      refine ih fun y => ?_
      by_cases hy : y = x
      · rw [hy, bind_self]
        exact Nat.succ_pos n
      · rw [bind_of_ne ρ hy]
        exact (hρ y).shift
  | app f a ihf iha => exact ⟨ihf hρ, iha hρ⟩

/-- The nameless form of a term refers to no binder outside itself. -/
theorem closedUnder_nameless (t : Term) : t.nameless.ClosedUnder 0 := by
  rw [nameless_eq_denote]
  exact closedUnder_denote fun _ => trivial

/-- Closed terms are put for free names in the values of the names. -/
theorem replaceFree_denote (t : Term) (ρ : Valuation) {φ : Name → Nameless}
    (hφ : ∀ x, (φ x).ClosedUnder 0) :
    (t.denote ρ).replaceFree φ = t.denote fun x => (ρ x).replaceFree φ := by
  induction t generalizing ρ with
  | var x => rfl
  | abs x b ih =>
      rw [denote, denote, replaceFree, ih]
      congr 2
      funext y
      by_cases hy : y = x
      · rw [hy, bind_self, bind_self]
        rfl
      · rw [bind_of_ne ρ hy, bind_of_ne _ hy]
        exact replaceFree_rename (ρ y) hφ Nat.succ
  | app f a ihf iha => rw [denote, denote, replaceFree, ihf, iha]

/-- Putting closed terms for the free names of a nameless form gives the names these values. -/
theorem replaceFree_nameless (t : Term) {φ : Name → Nameless} (hφ : ∀ x, (φ x).ClosedUnder 0) :
    t.nameless.replaceFree φ = t.denote φ := by
  rw [nameless_eq_denote, replaceFree_denote t free hφ]
  rfl

end Term

end NamedLambda
