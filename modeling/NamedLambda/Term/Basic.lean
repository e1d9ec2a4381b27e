/-
NamedLambda/Term/Basic.lean

Terms of the untyped λ-calculus with named variables, their measures and their free variables.

Main facts: `mem_freeVariables` says that the test `occursFree` and the set `freeVariables` agree.
-/
import NamedLambda.Name.Set

namespace NamedLambda

/-- A λ-term. -/
inductive Term where
  /-- A variable. -/
  | var (x : Name)
  /-- The abstraction of `x` in `body`. -/
  | abs (x : Name) (body : Term)
  /-- The application of `f` to `a`. -/
  | app (f a : Term)
deriving DecidableEq, Repr, Inhabited

namespace Term

/-! ### Shape and measures -/

/-- Whether a term is an abstraction. -/
def isAbs : Term → Bool
  | abs _ _ => true
  | _ => false

/-- Whether a term is a variable. -/
def isVar : Term → Bool
  | var _ => true
  | _ => false

/-- The number of nodes. -/
def size : Term → Nat
  | var _ => 1
  | abs _ b => b.size + 1
  | app f a => f.size + a.size + 1

/-- The number of nodes on the longest path from the root to a leaf. -/
def depth : Term → Nat
  | var _ => 1
  | abs _ b => b.depth + 1
  | app f a => max f.depth a.depth + 1

/-! ### Free variables -/

/-- The names that occur free. -/
def freeVariables : Term → NameSet
  | var x => .singleton x
  | abs x b => b.freeVariables.erase x
  | app f a => f.freeVariables ∪ a.freeVariables

/-- Whether `x` occurs free. -/
def occursFree (x : Name) : Term → Bool
  | var y => y == x
  | abs y b => y != x && b.occursFree x
  | app f a => f.occursFree x || a.occursFree x

theorem mem_freeVariables {x : Name} {t : Term} : x ∈ t.freeVariables ↔ t.occursFree x := by
  induction t with
  | var y => simp [freeVariables, occursFree, @eq_comm _ x y]
  | abs y b ih => simp [freeVariables, occursFree, ih, and_comm, @eq_comm _ x y]
  | app f a ihf iha => simp [freeVariables, occursFree, ihf, iha]

end Term

end NamedLambda
