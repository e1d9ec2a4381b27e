/-
NamedLambda/Proofs/Church/Logic.lean

Logic on booleans.

A boolean applied to two operands becomes one of them (`reduces_boolean_app_app`).  Conjunction,
disjunction and exclusive disjunction each apply their first operand to two terms made of the
operands, so all that is left of them is a choice between the two, and negation exchanges what a
boolean chooses from.

As with arithmetic, the operands of a formula are unreduced terms, of which the combinators make
copies.  That the copies are reduced in turn, or one of them is discarded, makes no difference to the
outcome: the operands may as well be reduced first (`Formula.reduces_boolean`).

Main result: `Formula.evaluates_to_truth`.
-/
import NamedLambda.Proofs.Church.Evaluation

namespace NamedLambda

namespace Nameless

open Church Term

/-! ### Choice -/

/-- A boolean chooses between its two arguments. -/
theorem reduces_boolean_app_app (p : Bool) (a b : Nameless) :
    Reduces (app (app (boolean p) a) b) (if p then a else b) := by
  have hfirst : Reduces (app (boolean p) a) (abs (if p then a.shift else bound 0)) := by
    cases p <;> exact .single (.contract _ a)
  have hsecond : Reduces (app (abs (if p then a.shift else bound 0)) b) (if p then a else b) := by
    cases p with
    | false => exact .single (.contract _ b)
    | true =>
        have h := Beta.contract a.shift b
        rw [instantiate_shift] at h
        exact .single h
  exact (hfirst.app .refl).trans hsecond

/-! ### Combinators on booleans -/

theorem reduces_not (p : Bool) :
    Reduces (app Combinator.not.term.nameless (boolean p)) (boolean !p) := by
  have hcontract : Reduces (app Combinator.not.term.nameless (boolean p))
      (abs (abs (app (app (boolean p).shift.shift (bound 0)) (bound 1)))) :=
    reduces_abs_nameless "p" _ (boolean p)
  rw [shift_boolean, shift_boolean] at hcontract
  have hchoice := hcontract.trans (reduces_boolean_app_app p (bound 0) (bound 1)).abs.abs
  cases p with
  | false => exact hchoice
  | true => exact hchoice

theorem reduces_and (p q : Bool) :
    Reduces (app (app Combinator.and.term.nameless (boolean p)) (boolean q))
      (boolean (p && q)) := by
  have hcontract : Reduces (app (app Combinator.and.term.nameless (boolean p)) (boolean q))
      (app (app (boolean p) (boolean q)) (boolean p)) :=
    reduces_abs_abs_nameless "p" "q" _ (boolean p) (boolean q)
  have hchoice := hcontract.trans (reduces_boolean_app_app p (boolean q) (boolean p))
  cases p with
  | false => exact hchoice
  | true => exact hchoice

theorem reduces_or (p q : Bool) :
    Reduces (app (app Combinator.or.term.nameless (boolean p)) (boolean q))
      (boolean (p || q)) := by
  have hcontract : Reduces (app (app Combinator.or.term.nameless (boolean p)) (boolean q))
      (app (app (boolean p) (boolean p)) (boolean q)) :=
    reduces_abs_abs_nameless "p" "q" _ (boolean p) (boolean q)
  have hchoice := hcontract.trans (reduces_boolean_app_app p (boolean p) (boolean q))
  cases p with
  | false => exact hchoice
  | true => exact hchoice

theorem reduces_xor (p q : Bool) :
    Reduces (app (app Combinator.xor.term.nameless (boolean p)) (boolean q))
      (boolean (p ^^ q)) := by
  have hcontract : Reduces (app (app Combinator.xor.term.nameless (boolean p)) (boolean q))
      (app (app (boolean p) (app Combinator.not.term.nameless (boolean q))) (boolean q)) :=
    reduces_abs_abs_nameless "p" "q" _ (boolean p) (boolean q)
  have hchoice := hcontract.trans
    (reduces_boolean_app_app p (app Combinator.not.term.nameless (boolean q)) (boolean q))
  cases p with
  | false =>
      rw [Bool.false_xor]
      exact hchoice
  | true =>
      -- The negation of the second operand has been chosen and is left to be reduced.
      rw [Bool.true_xor]
      exact hchoice.trans (reduces_not q)

end Nameless

namespace Church

/-! ### Formulas -/

/-- A formula over truth values. -/
inductive Formula where
  | truth (p : Bool)
  | not (a : Formula)
  | and (a b : Formula)
  | or (a b : Formula)
  | xor (a b : Formula)

namespace Formula

/-- The truth value of a formula. -/
def value : Formula → Bool
  | truth p => p
  | not a => !a.value
  | and a b => a.value && b.value
  | or a b => a.value || b.value
  | xor a b => a.value ^^ b.value

/-- The term of a formula, in which nothing is reduced: combinators applied to the terms of the
operands. -/
def term : Formula → Term
  | truth p => boolean p
  | not a => Combinator.not.unary a.term
  | and a b => Combinator.and.binary a.term b.term
  | or a b => Combinator.or.binary a.term b.term
  | xor a b => Combinator.xor.binary a.term b.term

theorem reduces_boolean (a : Formula) :
    Nameless.Reduces a.term.nameless (.boolean a.value) := by
  induction a with
  | truth p =>
      rw [term, nameless_boolean]
      exact .refl
  | not a ih => exact Combinator.not.reduces_unary ih (Nameless.reduces_not _)
  | and a b iha ihb => exact Combinator.and.reduces_binary iha ihb (Nameless.reduces_and _ _)
  | or a b iha ihb => exact Combinator.or.reduces_binary iha ihb (Nameless.reduces_or _ _)
  | xor a b iha ihb => exact Combinator.xor.reduces_binary iha ihb (Nameless.reduces_xor _ _)

theorem reducesAlpha_boolean (a : Formula) : a.term.ReducesAlpha (boolean a.value) := by
  refine .of_nameless ?_
  rw [nameless_boolean]
  exact a.reduces_boolean

/-- **Logic on booleans is sound.**  Under any budget a formula evaluates to its truth value, or its
reduction is given up.  Normal order always comes to an end, in the boolean of the truth value up to
bound names, and a budget suffices for the evaluation if it allows for all steps of that run and
none of them leaves the limits. -/
theorem evaluates_to_truth (a : Formula) :
    (∀ budget, a.term.toBool budget = .ok a.value ∨
        ∃ d, a.term.toBool budget = .error (.divergence d)) ∧
      ∃ us r, (Strategy.normalOrder true).Run a.term us r ∧
        (Strategy.normalOrder true).step r = none ∧ r.alphaEq (boolean a.value) ∧
        ∀ budget, a.term.toBool budget = .ok a.value ↔
          us.length ≤ budget ∧ ∀ u ∈ us, u.withinLimits := by
  simp only [toBool_eq_evaluate]
  exact ⟨truths.evaluate_of_reducesAlpha a.reducesAlpha_boolean,
    truths.exists_run_of_reducesAlpha a.reducesAlpha_boolean⟩

/-- Of the two copies of the second operand one is negated and the other one discarded. -/
example : (xor (not (truth false)) (and (truth true) (not (truth true)))).term.toBool
    defaultBudget = .ok true := by
  decide +kernel

end Formula

end Church

end NamedLambda
