/-
NamedLambda/Term/Nameless.lean

Nameless terms: a bound variable is the number of binders between it and its own, a free variable
keeps its name.  Terms that differ only in the names of their bound variables have one nameless
form, and that is what `alphaEq` compares.
-/
import NamedLambda.Term.Basic

namespace NamedLambda

/-- A λ-term whose bound variables are indices. -/
inductive Nameless where
  /-- The variable of the binder that is `index` binders further out. -/
  | bound (index : Nat)
  /-- A free variable. -/
  | free (x : Name)
  /-- An abstraction. -/
  | abs (body : Nameless)
  /-- The application of `f` to `a`. -/
  | app (f a : Nameless)
deriving DecidableEq, Repr, Inhabited

namespace Term

/-- The nameless form of a term under the given binders, the innermost first. -/
def namelessUnder (binders : List Name) : Term → Nameless
  | var x =>
      match binders.idxOf? x with
      | some i => .bound i
      | none => .free x
  | abs x b => .abs (b.namelessUnder (x :: binders))
  | app f a => .app (f.namelessUnder binders) (a.namelessUnder binders)

/-- The nameless form of a term. -/
def nameless (t : Term) : Nameless :=
  t.namelessUnder []

/-- Whether two terms are equal up to the names of bound variables. -/
def alphaEq (t u : Term) : Bool :=
  t.nameless = u.nameless

end Term

end NamedLambda
