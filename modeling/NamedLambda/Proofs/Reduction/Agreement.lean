/-
NamedLambda/Proofs/Reduction/Agreement.lean

All strategies agree.  They contract the redexes of a term in different orders, so their results
may differ, but no result is lost to the others: any two of them have a common reduct.  Results
without a redex leave nothing to reduce and are the same up to bound names.
-/
import NamedLambda.Proofs.Reduction.Budget

namespace NamedLambda

namespace Term

/-- `n` is a normal form of `t`. -/
def IsNormalFormOf (n t : Term) : Prop :=
  n.Normal ∧ t.ReducesAlpha n

theorem IsNormalFormOf.unique {m n t : Term} (hm : m.IsNormalFormOf t)
    (hn : n.IsNormalFormOf t) : m.alphaEq n :=
  hm.2.normal_unique hn.2 hm.1 hn.1

/-- A normal form of a reduct is one of the term itself. -/
theorem IsNormalFormOf.of_reduces {n t u : Term} (hn : n.IsNormalFormOf u) (h : t.Reduces u) :
    n.IsNormalFormOf t :=
  ⟨hn.1, h.toAlpha.trans hn.2⟩

end Term

namespace Strategy

open Term

theorem reduces_of_reduce {s : Strategy} {budget : Nat} {t r : Term}
    (h : s.reduce budget t = .ok r) : t.Reduces r := by
  obtain ⟨us, hrun, -⟩ := reduce_eq_ok_iff.1 h
  exact hrun.reduces

/-- What a deep strategy ends with is a normal form. -/
theorem isNormalFormOf_of_reduce {s : Strategy} (hs : s.isDeep) {budget : Nat} {t r : Term}
    (h : s.reduce budget t = .ok r) : r.IsNormalFormOf t := by
  obtain ⟨us, hrun, hr, -⟩ := reduce_eq_ok_iff.1 h
  exact ⟨(step_eq_none_iff_normal hs).1 hr, hrun.reduces.toAlpha⟩

/-- **The strategies agree.**  Two results of one term, found by any two strategies under any
budgets, have a common reduct up to bound names.  If they are normal they are equal up to bound
names, which they always are for deep strategies.  And what a deep strategy makes of a result is the
normal form of the term that the result came from. -/
theorem reduce_agree {s₁ s₂ : Strategy} {budget₁ budget₂ : Nat} {t r₁ r₂ : Term}
    (h₁ : s₁.reduce budget₁ t = .ok r₁) (h₂ : s₂.reduce budget₂ t = .ok r₂) :
    (∃ u₁ u₂, r₁.Reduces u₁ ∧ r₂.Reduces u₂ ∧ u₁.alphaEq u₂) ∧
      (r₁.Normal → r₂.Normal → r₁.alphaEq r₂) ∧
      (s₁.isDeep → s₂.isDeep → r₁.alphaEq r₂) ∧
      (∀ n : Term, n.IsNormalFormOf r₁ →
        n.IsNormalFormOf t ∧ ∀ m : Term, m.IsNormalFormOf t → n.alphaEq m) ∧
      ∀ (s : Strategy) (budget : Nat) (n : Term), s.isDeep → s.reduce budget r₁ = .ok n →
        n.IsNormalFormOf t ∧ ∀ m : Term, m.IsNormalFormOf t → n.alphaEq m := by
  have ht₁ : t.Reduces r₁ := reduces_of_reduce h₁
  have ht₂ : t.Reduces r₂ := reduces_of_reduce h₂
  have hnorm : ∀ n : Term, n.IsNormalFormOf r₁ →
      n.IsNormalFormOf t ∧ ∀ m : Term, m.IsNormalFormOf t → n.alphaEq m := by
    intro n hn
    have hnt : n.IsNormalFormOf t := hn.of_reduces ht₁
    exact ⟨hnt, fun m hm => hnt.unique hm⟩
  refine ⟨ht₁.toAlpha.confluent ht₂.toAlpha, ?_, ?_, hnorm, ?_⟩
  · intro hn₁ hn₂
    exact ht₁.toAlpha.normal_unique ht₂.toAlpha hn₁ hn₂
  · intro hs₁ hs₂
    exact (isNormalFormOf_of_reduce hs₁ h₁).unique (isNormalFormOf_of_reduce hs₂ h₂)
  · intro s budget n hs hn
    exact hnorm n (isNormalFormOf_of_reduce hs hn)

/-- Call-by-name leaves the redex that it has put into the renamed body, and normal order contracts
it; the two results still have a common reduct. -/
theorem callByName_agrees_normalOrder :
    let t := app (abs "x" (abs "y" (app (var "x") (var "y")))) (app (abs "z" (var "z")) (var "y"))
    let r₁ := abs "y1" (app (app (abs "z" (var "z")) (var "y")) (var "y1"))
    let r₂ := abs "y1" (app (var "y") (var "y1"))
    callByName.reduce 1 t = .ok r₁ ∧ (normalOrder true).reduce 2 t = .ok r₂ ∧
      ∃ u₁ u₂, r₁.Reduces u₁ ∧ r₂.Reduces u₂ ∧ u₁.alphaEq u₂ := by
  intro t r₁ r₂
  have h₁ : callByName.reduce 1 t = .ok r₁ := by decide +kernel
  have h₂ : (normalOrder true).reduce 2 t = .ok r₂ := by decide +kernel
  exact ⟨h₁, h₂, (reduce_agree h₁ h₂).1⟩

end Strategy

end NamedLambda
