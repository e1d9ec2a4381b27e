/-
NamedLambda/Reduction/Bounded.lean

Reduction within limits and under a step budget.  The limits bound the depth of the recursions that
run along a term, and the cost of a single step.

Reduction ends well in the stopping form of the strategy.  It is given up when a step is left to do
and the budget is spent, or when a step gives a term outside the limits; the term that reduction
starts from is not held to them.
-/
import NamedLambda.Reduction.Strategy

namespace NamedLambda

/-! ### Limits -/

/-- The greatest depth of a term that is reduced further. -/
def maxDepth : Nat := 1000

/-- The greatest size of a term that is reduced further. -/
def maxSize : Nat := 10000

namespace Term

/-- Visit the pending terms, each given with the depth of its root, and those below them.  The
answer is no as soon as a root lies deeper than `maxDepth`, or when more than `room` nodes are
visited; so a term too large is refused without being visited to the end. -/
def visitWithin : (room : Nat) → (pending : List (Term × Nat)) → Bool
  | _, [] => true
  | 0, _ :: _ => false
  | room + 1, (t, d) :: pending =>
      if d ≤ maxDepth then
        match t with
        | var _ => visitWithin room pending
        | abs _ b => visitWithin room ((b, d + 1) :: pending)
        | app f a => visitWithin room ((a, d + 1) :: (f, d + 1) :: pending)
      else false

/-- Whether a term is small enough to be reduced further. -/
def withinLimits (t : Term) : Bool :=
  visitWithin maxSize [(t, 1)]

end Term

/-! ### Budgets -/

/-- The budget that is used where none is given. -/
def defaultBudget : Nat := 10000

/-- A reduction that was given up. -/
structure Divergence where
  strategy : Strategy
  /-- The number of steps that were done. -/
  steps : Nat
deriving DecidableEq, Repr

/-- The message for a reduction that was given up. -/
def Divergence.message (e : Divergence) : String :=
  e.strategy.name ++ " reduction did not terminate within " ++ e.steps.repr ++ " steps"

namespace Strategy

/-- Reduce `t` to the stopping form in at most `left` steps, `taken` having been done before, and
gather the terms after each step with `gather`. -/
@[specialize] def runFrom {β : Type} (s : Strategy) (gather : β → Term → β) :
    (left taken : Nat) → β → Term → Except Divergence β
  | 0, taken, acc, t =>
      match s.step t with
      | none => .ok acc
      | some _ => .error ⟨s, taken⟩
  | left + 1, taken, acc, t =>
      match s.step t with
      | none => .ok acc
      | some u =>
          if u.withinLimits then s.runFrom gather left (taken + 1) (gather acc u) u
          else .error ⟨s, taken + 1⟩

/-- The stopping form of `t`. -/
def reduce (s : Strategy) (budget : Nat) (t : Term) : Except Divergence Term :=
  s.runFrom (fun _ u => u) budget 0 t t

/-- The terms on the way from `t` to its stopping form, without `t` itself. -/
def trace (s : Strategy) (budget : Nat) (t : Term) : Except Divergence (List Term) :=
  (s.runFrom (fun us u => u :: us) budget 0 [] t).map List.reverse

end Strategy

end NamedLambda
