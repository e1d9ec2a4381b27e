/-
NamedLambda/Proofs/Nameless/Standard.lean

Standardization of nameless reduction.

A standard reduction works from the outside in: it first contracts weak head redexes, the ones at
the root or at the root of an operator, and only then goes on inside the parts of the term that it
has come to.  The definition of `Standard` follows this picture, the weak head steps being peeled
off one by one by the rule `head`.

The main result, `Standard.of_reduces`, is that every reduction can be made standard.  It is proved
by adding one contraction at the end of a standard reduction (`Standard.tail`).  If that contraction
is of a redex whose abstraction has come about on the way, the weak head steps that have led to the
abstraction are made first, then the contraction becomes a weak head step itself, and what was done
inside the two parts of the redex is done in the contracted term (`Standard.instantiate`).
-/
import NamedLambda.Proofs.Nameless.Beta

namespace NamedLambda

namespace Nameless

/-! ### Weak head steps -/

/-- The contraction of a redex at the root, or at the root of an operator. -/
inductive WeakHead : Nameless → Nameless → Prop
  | contract (b a : Nameless) : WeakHead (app (abs b) a) (b.instantiate a)
  | app {f f' : Nameless} (a : Nameless) : WeakHead f f' → WeakHead (app f a) (app f' a)

/-- Any number of weak head steps. -/
abbrev WeakHeads : Nameless → Nameless → Prop :=
  Relation.ReflTransGen WeakHead

theorem WeakHead.beta {t u : Nameless} (h : WeakHead t u) : Beta t u := by
  induction h with
  | contract b a => exact .contract b a
  | app a _ ih => exact .appLeft a ih

theorem WeakHead.subst {t u : Nameless} (h : WeakHead t u) (σ : Nat → Nameless) :
    WeakHead (t.subst σ) (u.subst σ) := by
  induction h with
  | contract b a =>
      rw [subst_instantiate]
      exact .contract _ _
  | app a _ ih => exact .app _ ih

theorem WeakHead.rename {t u : Nameless} (h : WeakHead t u) (ξ : Nat → Nat) :
    WeakHead (t.rename ξ) (u.rename ξ) := by
  rw [rename_eq_subst, rename_eq_subst]
  exact h.subst _

theorem WeakHeads.app {f f' : Nameless} (h : WeakHeads f f') (a : Nameless) :
    WeakHeads (app f a) (app f' a) :=
  h.lift (Nameless.app · a) fun _ _ => WeakHead.app a

/-! ### Standard reductions -/

/-- A reduction from the outside in. -/
inductive Standard : Nameless → Nameless → Prop
  | bound (i : Nat) : Standard (bound i) (bound i)
  | free (x : Name) : Standard (free x) (free x)
  | abs {b b' : Nameless} : Standard b b' → Standard (abs b) (abs b')
  | app {f f' a a' : Nameless} : Standard f f' → Standard a a' → Standard (app f a) (app f' a')
  | head {t u v : Nameless} : WeakHead t u → Standard u v → Standard t v

theorem Standard.refl (t : Nameless) : Standard t t := by
  induction t with
  | bound i => exact .bound i
  | free x => exact .free x
  | abs b ih => exact .abs ih
  | app f a ihf iha => exact .app ihf iha

theorem Standard.reduces {t u : Nameless} (h : Standard t u) : Reduces t u := by
  induction h with
  | bound i => exact .refl
  | free x => exact .refl
  | abs _ ih => exact ih.abs
  | app _ _ ihf iha => exact ihf.app iha
  | head hw _ ih => exact .head hw.beta ih

theorem Standard.of_weakHeads {t u v : Nameless} (h : WeakHeads t u) (hs : Standard u v) :
    Standard t v := by
  induction h using Relation.ReflTransGen.head_induction_on with
  | refl => exact hs
  | head hw _ ih => exact .head hw ih

/-- A standard reduction to an abstraction comes to one by weak head steps. -/
theorem Standard.exists_abs {t b' : Nameless} (h : Standard t (Nameless.abs b')) :
    ∃ b, WeakHeads t (Nameless.abs b) ∧ Standard b b' := by
  -- The end of the reduction stays the same along the rule `head`, its start does not.
  generalize hn : Nameless.abs b' = n at h
  induction h with
  | bound i => cases hn
  | free x => cases hn
  | @abs b _ hb _ =>
      cases hn
      exact ⟨b, .refl, hb⟩
  | app _ _ _ _ => cases hn
  | head hw _ ih =>
      obtain ⟨b, hbs, hb⟩ := ih hn
      exact ⟨b, .head hw hbs, hb⟩

/-! ### Standard reductions and substitution -/

theorem Standard.rename {t u : Nameless} (h : Standard t u) (ξ : Nat → Nat) :
    Standard (t.rename ξ) (u.rename ξ) := by
  induction h generalizing ξ with
  | bound i => exact .bound (ξ i)
  | free x => exact .free x
  | abs _ ih => exact .abs (ih _)
  | app _ _ ihf iha => exact .app (ihf ξ) (iha ξ)
  | head hw _ ih => exact .head (hw.rename ξ) (ih ξ)

theorem Standard.lift {σ τ : Nat → Nameless} (h : ∀ i, Standard (σ i) (τ i)) (i : Nat) :
    Standard (lift σ i) (lift τ i) :=
  lift_related (.bound 0) (fun _ _ htu => htu.rename Nat.succ) h i

theorem Standard.subst {t u : Nameless} (h : Standard t u) {σ τ : Nat → Nameless}
    (hστ : ∀ i, Standard (σ i) (τ i)) : Standard (t.subst σ) (u.subst τ) := by
  induction h generalizing σ τ with
  | bound i => exact hστ i
  | free x => exact .free x
  | abs _ ih => exact .abs (ih (Standard.lift hστ))
  | app _ _ ihf iha => exact .app (ihf hστ) (iha hστ)
  | head hw _ ih => exact .head (hw.subst σ) (ih hστ)

theorem Standard.instantiate {b b' a a' : Nameless} (hb : Standard b b') (ha : Standard a a') :
    Standard (b.instantiate a) (b'.instantiate a') :=
  hb.subst (push_related .bound ha)

/-! ### Standardization -/

/-- A contraction at the end of a standard reduction finds its place in it. -/
theorem Standard.tail {t u v : Nameless} (h : Standard t u) (hb : Beta u v) : Standard t v := by
  induction h generalizing v with
  | bound i => exact absurd hb (normal_bound i v)
  | free x => exact absurd hb (normal_free x v)
  | abs _ ih =>
      cases hb with
      | abs hb => exact .abs (ih hb)
  | @app f f' a a' hf ha ihf iha =>
      cases hb with
      | contract c _ =>
          -- The operator is an abstraction by now, and the weak head steps to the first one that
          -- it became are followed by the contraction at once.
          obtain ⟨b, hbs, hbc⟩ := hf.exists_abs
          have hhead : WeakHeads (Nameless.app f a) (b.instantiate a) :=
            (hbs.app a).tail (.contract b a)
          exact .of_weakHeads hhead (hbc.instantiate ha)
      | appLeft _ hl => exact .app (ihf hl) ha
      | appRight _ hr => exact .app hf (iha hr)
  | head hw _ ih => exact .head hw (ih hb)

/-- **Standardization**: what a term reduces to, it reduces to from the outside in. -/
theorem Standard.of_reduces {t u : Nameless} (h : Reduces t u) : Standard t u := by
  induction h with
  | refl => exact .refl t
  | tail _ hb ih => exact ih.tail hb

end Nameless

end NamedLambda
