/-
NamedLambda/Proofs/Environment/Define.lean

A definition acts like a substitution that is made first.

A definition is resolved when it is made, so afterwards its name has the value that the defining
term had before (`value_define`).  Substituting the defining term for the name changes the values in
the same way.  So to make a definition and then resolve a term comes to the same, up to bound names,
as to substitute in the term and resolve the result as before, and a history of definitions can be
taken away from its end one by one, whatever it redefines or refers to.

Main result: `resolve_define_alphaEq`.
-/
import NamedLambda.Proofs.Environment.Resolve

namespace NamedLambda

open Nameless (free)

namespace Environment

open Term

/-! ### Values after a definition -/

theorem value_store (env : Environment) (x : Name) (d : Term) :
    (env.store x d).value = Function.update env.value x d.nameless := by
  funext y
  by_cases hy : y = x
  · subst hy
    have h : (env.store y d).lookup y = some d := by simp
    rw [value_of_lookup h, Function.update_self]
  · have h : (env.store x d).lookup y = env.lookup y := by simp [hy]
    rw [value, h, Function.update_of_ne hy, value]

/-- A defined name has the value that the defining term had before. -/
theorem value_define (env : Environment) (x : Name) (d : Term) :
    (env.define x d).value = Function.update env.value x (d.denote env.value) := by
  rw [define, value_store, nameless_resolve]

@[simp] theorem value_empty : (∅ : Environment).value = free := by
  funext x
  exact value_of_lookup_none (lookup_empty x)

/-! ### Definitions and substitutions -/

theorem nameless_resolve_empty (t : Term) :
    ((∅ : Environment).resolve t).nameless = t.nameless := by
  rw [nameless_resolve, value_empty, nameless_eq_denote]

theorem nameless_resolve_define (env : Environment) (x : Name) (d t : Term) :
    ((env.define x d).resolve t).nameless = (env.resolve (t.substitute x d)).nameless := by
  rw [nameless_resolve, value_define, nameless_resolve, denote_substitute]

/-- The environment after a history of definitions. -/
def defineAll (env : Environment) : List (Name × Term) → Environment
  | [] => env
  | (x, d) :: history => (env.define x d).defineAll history

/-- A history of definitions is a row of substitutions, the last definition first. -/
theorem nameless_resolve_defineAll (env : Environment) (history : List (Name × Term))
    (t : Term) :
    ((env.defineAll history).resolve t).nameless =
      (env.resolve (history.foldr (fun d u => u.substitute d.1 d.2) t)).nameless := by
  induction history generalizing env with
  | nil => rfl
  | cons d history ih => rw [defineAll, ih, nameless_resolve_define, List.foldr_cons]

/-- **Definitions are nested local bindings.**  A term resolved after a definition is the same, up
to bound names, as the term with the defining term substituted for the name and resolved before it.
So what a term resolves to after any history of definitions is the term with all of them
substituted, from the last to the first. -/
theorem resolve_define_alphaEq (env : Environment) (x : Name) (d t : Term)
    (history : List (Name × Term)) :
    ((env.define x d).resolve t).alphaEq (env.resolve (t.substitute x d)) ∧
      (((∅ : Environment).defineAll history).resolve t).alphaEq
        (history.foldr (fun d u => u.substitute d.1 d.2) t) := by
  constructor
  · exact alphaEq_iff.2 (nameless_resolve_define env x d t)
  · refine alphaEq_iff.2 ?_
    rw [nameless_resolve_defineAll, nameless_resolve_empty]

/-- `x` is redefined by means of itself and of `y`, and `y` is defined only later. -/
example :
    ((∅ : Environment).defineAll
      [("x", var "y"), ("x", abs "y" (app (var "x") (var "y"))), ("y", var "z")]).resolve
        (app (var "x") (var "y")) =
      app (abs "y1" (app (var "y") (var "y1"))) (var "z") := by
  decide +kernel

end Environment

end NamedLambda
