/-
NamedLambda/Session/BudgetText.lean

The step budget as a user writes it: decimal digits, after a plus sign if one likes, for a number
that fits in 64 bits.  Of several faults the leftmost is reported.
-/

namespace NamedLambda

/-- Why a text is no step budget. -/
inductive BudgetError where
  | invalidDigit
  | tooLarge
deriving DecidableEq, Repr

namespace BudgetError

/-- The message for a text that is no step budget. -/
def message : BudgetError → String
  | invalidDigit => "invalid digit found in string"
  | tooLarge => "number too large to fit in target type"

end BudgetError

/-- The greatest step budget, one less than 2^64. -/
def maxBudget : Nat := 18446744073709551615

/-- The number that `n` becomes by the digits written after it. -/
def readDigits (n : Nat) : List Char → Except BudgetError Nat
  | [] => .ok n
  | c :: cs =>
      if c.isDigit then
        let m := 10 * n + (c.toNat - '0'.toNat)
        if m ≤ maxBudget then readDigits m cs else .error .tooLarge
      else .error .invalidDigit

/-- The step budget that a text gives. -/
def readBudget (s : String) : Except BudgetError Nat :=
  match s.toList with
  | '+' :: c :: cs => readDigits 0 (c :: cs)
  | cs => readDigits 0 cs

end NamedLambda
