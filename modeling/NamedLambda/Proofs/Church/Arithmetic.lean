/-
NamedLambda/Proofs/Church/Arithmetic.lean

Arithmetic on numerals.

A numeral applied to an operator becomes the iteration of it, and an iteration of an iteration is an
iteration again.  With these two facts each combinator turns numerals into the numeral of its
result.  The combinators are named terms and the numerals enter them as values of their parameters,
so a contraction is a change of one value (`reduces_abs_nameless`), and no binder has to be renamed on
the way.

The operands of an expression are not numerals but terms that reduce to numerals.  Reduction may take
them first, so the facts about numerals carry over to all expressions by induction
(`Arithmetic.reduces_numeral`), whatever normal order does with the unreduced operands.

Main result: `Arithmetic.evaluates_to_number`.
-/
import NamedLambda.Proofs.Church.Evaluation

namespace NamedLambda

namespace Nameless

open Church Term

/-! ### Iteration -/

theorem subst_iterate (f x : Nameless) (n : Nat) (σ : Nat → Nameless) :
    (iterate f x n).subst σ = iterate (f.subst σ) (x.subst σ) n := by
  induction n with
  | zero => rfl
  | succ n ih => rw [iterate, subst, ih, iterate]

theorem iterate_iterate (f x : Nameless) (m n : Nat) :
    iterate f (iterate f x n) m = iterate f x (m + n) := by
  induction m with
  | zero => rw [Nat.zero_add, iterate]
  | succ m ih => rw [Nat.succ_add, iterate, iterate, ih]

theorem reduces_numeral_app (n : Nat) (f : Nameless) :
    Reduces (app (numeral n) f) (abs (iterate f.shift (bound 0) n)) := by
  have h : (abs (iterate (bound 1) (bound 0) n)).instantiate f =
      abs (iterate f.shift (bound 0) n) := by
    rw [instantiate, subst, subst_iterate]
    rfl
  exact .single (h ▸ .contract _ f)

/-- The numeral of `n` iterates its first argument `n` times. -/
theorem reduces_numeral_app_app (n : Nat) (f x : Nameless) :
    Reduces (app (app (numeral n) f) x) (iterate f x n) := by
  have h : (iterate f.shift (bound 0) n).instantiate x = iterate f x n := by
    rw [instantiate, subst_iterate]
    exact congrArg (fun g => iterate g x n) (instantiate_shift f x)
  exact ((reduces_numeral_app n f).app .refl).tail (h ▸ .contract _ x)

/-- Iterations of an iteration. -/
theorem reduces_iterate_numeral (n : Nat) (f x : Nameless) (m : Nat) :
    Reduces (iterate (app (numeral n) f) x m) (iterate f x (m * n)) := by
  induction m with
  | zero =>
      rw [Nat.zero_mul]
      exact .refl
  | succ m ih =>
      have h : iterate f (iterate f x (m * n)) n = iterate f x ((m + 1) * n) := by
        rw [iterate_iterate, Nat.succ_mul, Nat.add_comm]
      exact h ▸ (Reduces.app .refl ih).trans (reduces_numeral_app_app n f _)

/-! ### Combinators on numerals -/

theorem reduces_succ (n : Nat) :
    Reduces (app Combinator.succ.term.nameless (numeral n)) (numeral (n + 1)) := by
  have hcontract : Reduces (app Combinator.succ.term.nameless (numeral n))
      (abs (abs (app (bound 1) (app (app (numeral n).shift.shift (bound 1)) (bound 0))))) :=
    reduces_abs_nameless "n" _ (numeral n)
  rw [shift_numeral, shift_numeral] at hcontract
  have hn := reduces_numeral_app_app n (bound 1) (bound 0)
  have hbody : Reduces (app (bound 1) (app (app (numeral n) (bound 1)) (bound 0)))
      (iterate (bound 1) (bound 0) (n + 1)) :=
    Reduces.app .refl hn
  exact hcontract.trans hbody.abs.abs

theorem reduces_add (m n : Nat) :
    Reduces (app (app Combinator.add.term.nameless (numeral m)) (numeral n))
      (numeral (m + n)) := by
  have hcontract : Reduces (app (app Combinator.add.term.nameless (numeral m)) (numeral n))
      (abs (abs (app (app (numeral m).shift.shift (bound 1))
        (app (app (numeral n).shift.shift (bound 1)) (bound 0))))) :=
    reduces_abs_abs_nameless "m" "n" _ (numeral m) (numeral n)
  simp only [shift_numeral] at hcontract
  have hn := reduces_numeral_app_app n (bound 1) (bound 0)
  have hm := reduces_numeral_app_app m (bound 1) (iterate (bound 1) (bound 0) n)
  rw [iterate_iterate] at hm
  have hbody : Reduces
      (app (app (numeral m) (bound 1)) (app (app (numeral n) (bound 1)) (bound 0)))
      (iterate (bound 1) (bound 0) (m + n)) :=
    (Reduces.app .refl hn).trans hm
  exact hcontract.trans hbody.abs.abs

theorem reduces_mul (m n : Nat) :
    Reduces (app (app Combinator.mul.term.nameless (numeral m)) (numeral n))
      (numeral (m * n)) := by
  have hcontract : Reduces (app (app Combinator.mul.term.nameless (numeral m)) (numeral n))
      (abs (app (numeral m).shift (app (numeral n).shift (bound 0)))) :=
    reduces_abs_abs_nameless "m" "n" _ (numeral m) (numeral n)
  rw [shift_numeral, shift_numeral] at hcontract
  have hm := reduces_numeral_app m (app (numeral n) (bound 0))
  -- The operator that is iterated comes under one more binder.
  have hshift : (app (numeral n) (bound 0)).shift = app (numeral n) (bound 1) :=
    congrArg (app · (bound 1)) (shift_numeral n)
  rw [hshift] at hm
  have hn := reduces_iterate_numeral n (bound 1) (bound 0) m
  have hbody : Reduces (app (numeral m) (app (numeral n) (bound 0)))
      (abs (iterate (bound 1) (bound 0) (m * n))) :=
    hm.trans hn.abs
  exact hcontract.trans hbody.abs

end Nameless

namespace Church

/-! ### Arithmetic expressions -/

/-- An expression over numbers. -/
inductive Arithmetic where
  | number (n : Nat)
  | succ (d : Arithmetic)
  | add (d e : Arithmetic)
  | mul (d e : Arithmetic)

namespace Arithmetic

/-- The number that an expression stands for. -/
def value : Arithmetic → Nat
  | number n => n
  | succ d => d.value + 1
  | add d e => d.value + e.value
  | mul d e => d.value * e.value

/-- The term of an expression, in which nothing is reduced: combinators applied to the terms of the
operands. -/
def term : Arithmetic → Term
  | number n => numeral n
  | succ d => Combinator.succ.unary d.term
  | add d e => Combinator.add.binary d.term e.term
  | mul d e => Combinator.mul.binary d.term e.term

theorem reduces_numeral (e : Arithmetic) :
    Nameless.Reduces e.term.nameless (.numeral e.value) := by
  induction e with
  | number n =>
      rw [term, nameless_numeral]
      exact .refl
  | succ d ih => exact Combinator.succ.reduces_unary ih (Nameless.reduces_succ _)
  | add d e ihd ihe => exact Combinator.add.reduces_binary ihd ihe (Nameless.reduces_add _ _)
  | mul d e ihd ihe => exact Combinator.mul.reduces_binary ihd ihe (Nameless.reduces_mul _ _)

theorem reducesAlpha_numeral (e : Arithmetic) : e.term.ReducesAlpha (numeral e.value) := by
  refine .of_nameless ?_
  rw [nameless_numeral]
  exact e.reduces_numeral

/-- **Arithmetic on numerals is sound.**  Under any budget an expression evaluates to its value, or
its reduction is given up.  Normal order always comes to an end, in the numeral of the value up to
bound names, and a budget suffices for the evaluation if it allows for all steps of that run and
none of them leaves the limits. -/
theorem evaluates_to_number (e : Arithmetic) :
    (∀ budget, e.term.toNumber budget = .ok e.value ∨
        ∃ d, e.term.toNumber budget = .error (.divergence d)) ∧
      ∃ us r, (Strategy.normalOrder true).Run e.term us r ∧
        (Strategy.normalOrder true).step r = none ∧ r.alphaEq (numeral e.value) ∧
        ∀ budget, e.term.toNumber budget = .ok e.value ↔
          us.length ≤ budget ∧ ∀ u ∈ us, u.withinLimits := by
  simp only [toNumber_eq_evaluate]
  exact ⟨numbers.evaluate_of_reducesAlpha e.reducesAlpha_numeral,
    numbers.exists_run_of_reducesAlpha e.reducesAlpha_numeral⟩

/-- The default budget suffices for two nested operations. -/
example : (add (mul (number 2) (succ (number 1))) (number 3)).term.toNumber defaultBudget =
    .ok 7 := by
  decide +kernel

end Arithmetic

end Church

end NamedLambda
