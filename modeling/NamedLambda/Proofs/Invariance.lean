/-
NamedLambda/Proofs/Invariance.lean

No operation tells terms apart that are equal up to the names of bound variables.

The operations do look at those names: which binders are renamed and what they are renamed to
depends on them, so two runs from equal terms rename different binders at different moments.  What
holds the two runs together is the nameless form, which each operation changes in a way that does
not depend on names.  For a single operation this is a fact that is proved elsewhere; for reduction
under a budget it is an induction along both runs (`runFrom_sameOutcome`), and the limits have to
agree at every step of it.

Main result: `alphaEq_invariance`.
-/
import NamedLambda.Proofs.Church.Decoding
import NamedLambda.Proofs.Environment.Resolve
import NamedLambda.Proofs.Reduction.Correspondence
import NamedLambda.Proofs.Reduction.Limits
import NamedLambda.Reduction.Bounded

namespace NamedLambda

/-! ### Substitution and resolving -/

namespace Term

/-- Terms with one nameless form denote the same whenever names stand for closed terms. -/
theorem denote_eq_of_nameless_eq {t u : Term} (h : t.nameless = u.nameless) {φ : Valuation}
    (hφ : ∀ x, (φ x).ClosedUnder 0) : t.denote φ = u.denote φ := by
  rw [← replaceFree_nameless t hφ, h, replaceFree_nameless u hφ]

theorem substitute_congr {t u r s : Term} (h : t.nameless = u.nameless) (x : Name)
    (hr : r.nameless = s.nameless) :
    (t.substitute x r).nameless = (u.substitute x s).nameless := by
  have hclosed : ∀ y, (Function.update Nameless.free x s.nameless y).ClosedUnder 0 := by
    intro y
    by_cases hy : y = x
    · rw [hy, Function.update_self]
      exact closedUnder_nameless s
    · rw [Function.update_of_ne hy]
      trivial
  rw [nameless_substitute, nameless_substitute, hr, denote_eq_of_nameless_eq h hclosed]

end Term

open Term

theorem Environment.resolve_congr (env : Environment) {t u : Term}
    (h : t.nameless = u.nameless) : (env.resolve t).nameless = (env.resolve u).nameless := by
  rw [nameless_resolve, nameless_resolve, denote_eq_of_nameless_eq h env.closedUnder_value]

namespace Strategy

/-! ### Steps -/

/-- Equal terms are both in the stopping form, or both take a step to equal terms. -/
theorem step_congr (s : Strategy) {t u : Term} (h : t.nameless = u.nameless) :
    (s.step t = none ∧ s.step u = none) ∨
      ∃ t' u', s.step t = some t' ∧ s.step u = some u' ∧ t'.nameless = u'.nameless := by
  have hmap : (s.step t).map nameless = (s.step u).map nameless := by
    rw [map_step_nameless, map_step_nameless, h]
  rcases ht : s.step t with - | t'
  · rw [ht] at hmap
    exact Or.inl ⟨rfl, Option.map_eq_none_iff.1 hmap.symm⟩
  · rw [ht] at hmap
    obtain ⟨u', hu, hnameless⟩ := Option.map_eq_some_iff.1 hmap.symm
    exact Or.inr ⟨t', u', rfl, hu, hnameless.symm⟩

/-! ### Reduction -/

/-- Two reductions both end well, with related results, or fail in the same way. -/
def SameOutcome {β : Type} (R : β → β → Prop) (x y : Except Divergence β) : Prop :=
  (∃ a b, x = .ok a ∧ y = .ok b ∧ R a b) ∨ ∃ e, x = .error e ∧ y = .error e

theorem SameOutcome.ok {β : Type} {R : β → β → Prop} {a b : β} (h : R a b) :
    SameOutcome R (.ok a) (.ok b) :=
  Or.inl ⟨a, b, rfl, rfl, h⟩

theorem SameOutcome.error {β : Type} {R : β → β → Prop} (e : Divergence) :
    SameOutcome R (.error e) (.error e) :=
  Or.inr ⟨e, rfl, rfl⟩

/-- Reductions of equal terms keep in step with each other. -/
theorem runFrom_sameOutcome {β : Type} {R : β → β → Prop} {gather : β → Term → β}
    (hgather : ∀ a b t u, R a b → t.nameless = u.nameless → R (gather a t) (gather b u))
    (s : Strategy) (left taken : Nat) {a b : β} {t u : Term} (hab : R a b)
    (h : t.nameless = u.nameless) :
    SameOutcome R (s.runFrom gather left taken a t) (s.runFrom gather left taken b u) := by
  induction left generalizing taken a b t u with
  | zero =>
      rw [runFrom, runFrom]
      rcases s.step_congr h with ⟨ht, hu⟩ | ⟨t', u', ht, hu, -⟩
      · rw [ht, hu]
        exact .ok hab
      · rw [ht, hu]
        exact .error _
  | succ left ih =>
      rw [runFrom, runFrom]
      rcases s.step_congr h with ⟨ht, hu⟩ | ⟨t', u', ht, hu, h'⟩
      · rw [ht, hu]
        exact .ok hab
      · rw [ht, hu]
        show SameOutcome R (if t'.withinLimits then _ else _) (if u'.withinLimits then _ else _)
        -- The limits see the same term on both sides.
        rw [withinLimits_congr h']
        split
        · exact ih (taken + 1) (hgather a b t' u' hab h') h'
        · exact .error _

theorem reduce_sameOutcome (s : Strategy) (budget : Nat) {t u : Term}
    (h : t.nameless = u.nameless) :
    SameOutcome (fun r r' => r.alphaEq r') (s.reduce budget t) (s.reduce budget u) := by
  -- Only the last term is kept, so what was gathered before does not matter.
  have hlast : ∀ a b v w : Term,
      a.alphaEq b → v.nameless = w.nameless → v.alphaEq w :=
    fun _ _ _ _ _ hvw => alphaEq_iff.2 hvw
  exact runFrom_sameOutcome hlast s budget 0 (alphaEq_iff.2 h) h

end Strategy

/-! ### All operations -/

/-- **All operations respect equality up to bound names.**  From equal terms, substitution and
resolving lead to equal terms, every strategy takes a step from both or from neither, reduction
under a budget gives equal results or fails after the same number of steps, and the decoders give
the same answer. -/
theorem alphaEq_invariance {t u : Term} (h : t.alphaEq u) :
    (∀ (x : Name) (r s : Term), r.alphaEq s →
        (t.substitute x r).alphaEq (u.substitute x s)) ∧
      (∀ env : Environment, (env.resolve t).alphaEq (env.resolve u)) ∧
      (∀ s : Strategy, (s.step t = none ∧ s.step u = none) ∨
        ∃ t' u', s.step t = some t' ∧ s.step u = some u' ∧ t'.alphaEq u') ∧
      (∀ (s : Strategy) (budget : Nat),
        (∃ r r', s.reduce budget t = .ok r ∧ s.reduce budget u = .ok r' ∧ r.alphaEq r') ∨
          ∃ e, s.reduce budget t = .error e ∧ s.reduce budget u = .error e) ∧
      Church.decodeNumeral t = Church.decodeNumeral u ∧
      Church.decodeBoolean t = Church.decodeBoolean u := by
  have hn : t.nameless = u.nameless := alphaEq_iff.1 h
  refine ⟨?_, ?_, ?_, ?_, ?_, ?_⟩
  · intro x r s hrs
    exact alphaEq_iff.2 (substitute_congr hn x (alphaEq_iff.1 hrs))
  · intro env
    exact alphaEq_iff.2 (env.resolve_congr hn)
  · intro s
    rcases s.step_congr hn with hnone | ⟨t', u', ht, hu, h'⟩
    · exact Or.inl hnone
    · exact Or.inr ⟨t', u', ht, hu, alphaEq_iff.2 h'⟩
  · intro s budget
    exact s.reduce_sameOutcome budget hn
  · rw [← Church.decodeNumeral_nameless, hn, Church.decodeNumeral_nameless]
  · rw [← Church.decodeBoolean_nameless, hn, Church.decodeBoolean_nameless]

/-- A binder has to be renamed in the first term and not in the second one. -/
theorem alphaEq_invariance_renamed :
    let t := app (abs "x" (abs "y" (app (var "x") (var "y")))) (var "y")
    let u := app (abs "a" (abs "b" (app (var "a") (var "b")))) (var "y")
    let r := abs "p" (app (var "p") (var "b"))
    let s := abs "q" (app (var "q") (var "b"))
    t.alphaEq u ∧ r.alphaEq s ∧ (t.substitute "y" r).alphaEq (u.substitute "y" s) ∧
      Strategy.callByName.step t = some (abs "y1" (app (var "y") (var "y1"))) ∧
      Strategy.callByName.step u = some (abs "b" (app (var "y") (var "b"))) ∧
      (abs "y1" (app (var "y") (var "y1"))).alphaEq (abs "b" (app (var "y") (var "b"))) := by
  intro t u r s
  have h : t.alphaEq u := by decide +kernel
  have hrs : r.alphaEq s := by decide +kernel
  have ht : Strategy.callByName.step t = some (abs "y1" (app (var "y") (var "y1"))) := by
    decide +kernel
  have hu : Strategy.callByName.step u = some (abs "b" (app (var "y") (var "b"))) := by
    decide +kernel
  obtain ⟨hsubstitute, -, hstep, -⟩ := alphaEq_invariance h
  refine ⟨h, hrs, hsubstitute "y" r s hrs, ht, hu, ?_⟩
  rcases hstep .callByName with ⟨hnone, -⟩ | ⟨t', u', ht', hu', h'⟩
  · rw [ht] at hnone
    cases hnone
  · rw [ht] at ht'
    rw [hu] at hu'
    cases ht'
    cases hu'
    exact h'

end NamedLambda
