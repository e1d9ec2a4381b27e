/-
NamedLambda/Term/Substitution.lean

Capture-avoiding substitution.  A binder that would capture a free variable of the replacement is
renamed first, to a fresh variant of its name, and the substitution goes on in the renamed body.

The renamed body is not a subterm of the term at hand, so the recursion follows the size of the
term: `substituteSized` returns, with its result, the fact that a variable put for a variable
keeps the size.  `substitute` forgets that fact, and `substitute_var`, `substitute_app` and
`substitute_abs` are its equations.
-/
import NamedLambda.Name.Fresh
import NamedLambda.Term.Basic

namespace NamedLambda

namespace Term

/-- The name that a binder `y` over `body` takes when it would capture a variable of `r`. -/
def freshBinder (y : Name) (body r : Term) : Name :=
  y.fresh (body.freeVariables ∪ r.freeVariables)

/-- Substitution of `r` for the free occurrences of `x`, with its effect on the size. -/
def substituteSized (t : Term) (x : Name) (r : Term) :
    { u : Term // r.isVar = true → u.size = t.size } :=
  match t with
  | var y =>
      if y = x then ⟨r, fun h => by cases r <;> simp_all [isVar, size]⟩
      else ⟨var y, fun _ => rfl⟩
  | app f a =>
      let f' := f.substituteSized x r
      let a' := a.substituteSized x r
      ⟨app f'.val a'.val, fun h => by simp [size, f'.property h, a'.property h]⟩
  | abs y b =>
      if y = x then ⟨abs y b, fun _ => rfl⟩
      else if r.occursFree y && b.occursFree x then
        let z := freshBinder y b r
        match b.substituteSized y (var z) with
        | ⟨b', hb⟩ =>
            let c := b'.substituteSized x r
            ⟨abs z c.val, fun h => by simp [size, c.property h, hb rfl]⟩
      else
        let c := b.substituteSized x r
        ⟨abs y c.val, fun h => by simp [size, c.property h]⟩
termination_by t.size
decreasing_by
  · simp only [size]; omega
  · simp only [size]; omega
  · simp only [size]; omega
  · have := hb rfl
    simp only [size]; omega
  · simp only [size]; omega

/-- The term with `r` put for every free occurrence of `x`, binders renamed where they would
capture a free variable of `r`. -/
def substitute (t : Term) (x : Name) (r : Term) : Term :=
  (t.substituteSized x r).val

theorem substitute_var (y x : Name) (r : Term) :
    (var y).substitute x r = if y = x then r else var y := by
  rw [substitute, substituteSized]; split <;> rfl

theorem substitute_app (f a : Term) (x : Name) (r : Term) :
    (app f a).substitute x r = app (f.substitute x r) (a.substitute x r) := by
  rw [substitute, substituteSized]; rfl

theorem substitute_abs (y : Name) (b : Term) (x : Name) (r : Term) :
    (abs y b).substitute x r =
      if y = x then abs y b
      else if r.occursFree y && b.occursFree x then
        abs (freshBinder y b r)
          ((b.substitute y (var (freshBinder y b r))).substitute x r)
      else abs y (b.substitute x r) := by
  rw [substitute, substituteSized]; split
  · rfl
  · split <;> rfl

/-! ### Redexes -/

/-- The contraction of a term that is a redex. -/
def contract : Term → Option Term
  | app (abs x b) a => some (b.substitute x a)
  | _ => none

end Term

end NamedLambda
