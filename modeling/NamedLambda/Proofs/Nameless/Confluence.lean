/-
NamedLambda/Proofs/Nameless/Confluence.lean

Confluence of reduction.

A parallel step contracts any number of the redexes that a term has at the start, none of those
that come about on the way.  Contracting all of them at once gives the development of the term, and
every parallel step can be completed to the development by one more parallel step
(`Parallel.triangle`).  So two parallel steps from one term always meet again, and since reduction
runs through parallel steps, two reductions meet as well.

Main result: `Reduces.confluent`, and from it `Reduces.normal_unique`.
-/
import NamedLambda.Proofs.Nameless.Beta

namespace NamedLambda

namespace Nameless

/-! ### Parallel steps -/

/-- Any number of redexes of a term are contracted at once. -/
inductive Parallel : Nameless → Nameless → Prop
  | bound (i : Nat) : Parallel (bound i) (bound i)
  | free (x : Name) : Parallel (free x) (free x)
  | abs {b b' : Nameless} : Parallel b b' → Parallel (abs b) (abs b')
  | app {f f' a a' : Nameless} : Parallel f f' → Parallel a a' → Parallel (app f a) (app f' a')
  | contract {b b' a a' : Nameless} :
      Parallel b b' → Parallel a a' → Parallel (app (abs b) a) (b'.instantiate a')

theorem Parallel.refl (t : Nameless) : Parallel t t := by
  induction t with
  | bound i => exact .bound i
  | free x => exact .free x
  | abs b ih => exact .abs ih
  | app f a ihf iha => exact .app ihf iha

theorem Beta.parallel {t u : Nameless} (h : Beta t u) : Parallel t u := by
  induction h with
  | contract b a => exact .contract (.refl b) (.refl a)
  | abs _ ih => exact .abs ih
  | appLeft a _ ih => exact .app ih (.refl a)
  | appRight f _ ih => exact .app (.refl f) ih

theorem Parallel.reduces {t u : Nameless} (h : Parallel t u) : Reduces t u := by
  induction h with
  | bound i => exact .refl
  | free x => exact .refl
  | abs _ ih => exact ih.abs
  | app _ _ ihf iha => exact ihf.app iha
  | contract _ _ ihb iha => exact (ihb.abs.app iha).tail (.contract _ _)

/-! ### Parallel steps and substitution -/

theorem Parallel.rename {t u : Nameless} (h : Parallel t u) (ξ : Nat → Nat) :
    Parallel (t.rename ξ) (u.rename ξ) := by
  induction h generalizing ξ with
  | bound i => exact .bound (ξ i)
  | free x => exact .free x
  | abs _ ih => exact .abs (ih _)
  | app _ _ ihf iha => exact .app (ihf ξ) (iha ξ)
  | contract _ _ ihb iha =>
      rw [rename_instantiate]
      exact .contract (ihb _) (iha ξ)

theorem Parallel.lift {σ τ : Nat → Nameless} (h : ∀ i, Parallel (σ i) (τ i)) (i : Nat) :
    Parallel (lift σ i) (lift τ i) :=
  lift_related (.bound 0) (fun _ _ htu => htu.rename Nat.succ) h i

theorem Parallel.subst {t u : Nameless} (h : Parallel t u) {σ τ : Nat → Nameless}
    (hστ : ∀ i, Parallel (σ i) (τ i)) : Parallel (t.subst σ) (u.subst τ) := by
  induction h generalizing σ τ with
  | bound i => exact hστ i
  | free x => exact .free x
  | abs _ ih => exact .abs (ih (Parallel.lift hστ))
  | app _ _ ihf iha => exact .app (ihf hστ) (iha hστ)
  | contract _ _ ihb iha =>
      rw [subst_instantiate]
      exact .contract (ihb (Parallel.lift hστ)) (iha hστ)

theorem Parallel.instantiate {b b' a a' : Nameless} (hb : Parallel b b') (ha : Parallel a a') :
    Parallel (b.instantiate a) (b'.instantiate a') :=
  hb.subst (push_related .bound ha)

/-! ### The development -/

/-- All redexes of a term contracted at once. -/
def develop : Nameless → Nameless
  | bound i => bound i
  | free x => free x
  | abs b => abs b.develop
  | app (abs b) a => b.develop.instantiate a.develop
  | app f a => app f.develop a.develop

theorem develop_app {f : Nameless} (a : Nameless) (hf : f.isAbs = false) :
    (app f a).develop = app f.develop a.develop := by
  cases f with
  | abs b => simp [isAbs] at hf
  | _ => rfl

/-- A parallel step can be completed to the development. -/
theorem Parallel.triangle {t u : Nameless} (h : Parallel t u) : Parallel u t.develop := by
  induction h with
  | bound i => exact .bound i
  | free x => exact .free x
  | abs _ ih => exact .abs ih
  | @app f f' a a' hf _ ihf iha =>
      cases hfa : f.isAbs with
      | false =>
          rw [develop_app a hfa]
          exact .app ihf iha
      | true =>
          -- The redex that was left alone is contracted now.
          obtain ⟨b, rfl⟩ := isAbs_iff.1 hfa
          cases hf with
          | abs _ =>
              cases ihf with
              | abs hb => exact .contract hb iha
  | contract _ _ ihb iha => exact ihb.instantiate iha

/-! ### Confluence -/

theorem reflTransGen_parallel {t u : Nameless} :
    Relation.ReflTransGen Parallel t u ↔ Reduces t u := by
  constructor
  · intro h
    induction h with
    | refl => exact .refl
    | tail _ hstep ih => exact ih.trans hstep.reduces
  · intro h
    exact h.lift id fun _ _ => Beta.parallel

/-- **Reduction is confluent**: two reducts of a term have a common reduct. -/
theorem Reduces.confluent {t u v : Nameless} (hu : Reduces t u) (hv : Reduces t v) :
    ∃ w, Reduces u w ∧ Reduces v w := by
  have diamond : ∀ a b c, Parallel a b → Parallel a c →
      ∃ d, Relation.ReflGen Parallel b d ∧ Relation.ReflTransGen Parallel c d := by
    intro a b c hb hc
    -- Both steps are completed to the same term.
    exact ⟨a.develop, .single hb.triangle, .single hc.triangle⟩
  obtain ⟨w, huw, hvw⟩ := Relation.church_rosser diamond (reflTransGen_parallel.2 hu)
    (reflTransGen_parallel.2 hv)
  exact ⟨w, reflTransGen_parallel.1 huw, reflTransGen_parallel.1 hvw⟩

/-- A term has at most one normal form. -/
theorem Reduces.normal_unique {t u v : Nameless} (hu : Reduces t u) (hv : Reduces t v)
    (hnu : Normal u) (hnv : Normal v) : u = v := by
  obtain ⟨w, huw, hvw⟩ := hu.confluent hv
  rw [← hnu.eq_of_reduces huw, ← hnv.eq_of_reduces hvw]

end Nameless

end NamedLambda
