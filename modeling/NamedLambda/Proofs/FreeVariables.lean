/-
NamedLambda/Proofs/FreeVariables.lean

Free variables are tracked exactly, through every operation.

A substitution and a step are looked at in `Term/FreeVariables`.  A run makes no free variable since
none of its steps does, and the terms of repeated requests and of bounded reduction are those of a
run.  Resolving goes through placeholders, which leave no trace: the free variables of the result
are those of the values that the names have (`occursFree_resolve`).

Main result: `freeVariables_exact`.
-/
import NamedLambda.Proofs.Environment.Resolve
import NamedLambda.Proofs.Reduction.Budget
import NamedLambda.Proofs.Term.FreeVariables

namespace NamedLambda

open Term

/-! ### Runs -/

namespace Strategy

variable {s : Strategy}

/-- Every term that is given on request is where a run has arrived. -/
theorem exists_run_of_mem_steps {t u : Term} {n : Nat} (h : some u ∈ s.steps n t) :
    ∃ us, s.Run t us u := by
  induction n generalizing t with
  | zero => cases h
  | succ n ih =>
      rw [steps] at h
      rcases ht : s.step t with - | v
      · rw [ht] at h
        cases List.eq_of_mem_replicate h
      · rw [ht] at h
        rcases List.mem_cons.1 h with hv | hu
        · obtain rfl := Option.some.inj hv
          exact ⟨[u], .cons ht (.nil u)⟩
        · obtain ⟨us, hrun⟩ := ih hu
          exact ⟨v :: us, .cons ht hrun⟩

/-- A run makes no free variable that was not there at its start. -/
theorem Run.occursFree {t v : Term} {us : List Term} (h : s.Run t us v) {x : Name}
    (hx : v.occursFree x) : t.occursFree x := by
  induction h with
  | nil t => exact hx
  | cons hstep _ ih => exact (step_beta hstep).occursFree (ih hx)

theorem occursFree_of_reduce {budget : Nat} {t r : Term} (h : s.reduce budget t = .ok r) {x : Name}
    (hx : r.occursFree x) : t.occursFree x := by
  obtain ⟨us, hrun, -⟩ := reduce_eq_ok_iff.1 h
  exact hrun.occursFree hx

end Strategy

/-! ### Resolving -/

namespace Environment

/-- The value of a defined name mentions the free variables of the definition. -/
theorem mentions_value_of_lookup {env : Environment} {x y : Name} {d : Term}
    (h : env.lookup y = some d) : (env.value y).Mentions x ↔ d.occursFree x := by
  rw [value_of_lookup h, mentions_nameless]

/-- The value of any other name mentions that name. -/
theorem mentions_value_of_lookup_none {env : Environment} {x y : Name}
    (h : env.lookup y = none) : (env.value y).Mentions x ↔ y = x := by
  rw [value_of_lookup_none h]
  exact Iff.rfl

/-- The free variables of a resolved term are those without a definition, and those of the
definitions of the others. -/
theorem occursFree_resolve {env : Environment} {t : Term} {x : Name} :
    (env.resolve t).occursFree x ↔
      (t.occursFree x ∧ env.lookup x = none) ∨
        ∃ y d, t.occursFree y ∧ env.lookup y = some d ∧ d.occursFree x := by
  rw [← mentions_nameless, nameless_resolve, mentions_denote]
  constructor
  · rintro ⟨y, hy, hx⟩
    rcases h : env.lookup y with - | d
    · rw [mentions_value_of_lookup_none h] at hx
      subst hx
      exact Or.inl ⟨hy, h⟩
    · rw [mentions_value_of_lookup h] at hx
      exact Or.inr ⟨y, d, hy, h, hx⟩
  · rintro (⟨hx, h⟩ | ⟨y, d, hy, h, hx⟩)
    · exact ⟨x, hx, (mentions_value_of_lookup_none h).2 rfl⟩
    · exact ⟨y, hy, (mentions_value_of_lookup h).2 hx⟩

end Environment

/-- **Free variables are tracked exactly.**  The walk with a stack of binders, the recursion and the
test agree.  A substitution puts the free variables of the replacement for the name if the name
occurs free, and otherwise gives the very same term.  No strategy makes a free variable, in any
number of steps.  Resolving keeps the free variables without a definition, and puts those of the
definitions for the others. -/
theorem freeVariables_exact (t : Term) :
    t.gatherFree [] ∅ = t.freeVariables ∧
      (∀ x, t.occursFree x ↔ x ∈ t.freeVariables) ∧
      (∀ x r, t.occursFree x →
        (t.substitute x r).freeVariables = t.freeVariables.erase x ∪ r.freeVariables) ∧
      (∀ x r, ¬ t.occursFree x → t.substitute x r = t) ∧
      (∀ (s : Strategy) (n : Nat) (u : Term), some u ∈ s.steps n t →
        ∀ x ∈ u.freeVariables, x ∈ t.freeVariables) ∧
      (∀ (s : Strategy) (budget : Nat) (u : Term), s.reduce budget t = .ok u →
        ∀ x ∈ u.freeVariables, x ∈ t.freeVariables) ∧
      ∀ (env : Environment) (x : Name), x ∈ (env.resolve t).freeVariables ↔
        (x ∈ t.freeVariables ∧ env.lookup x = none) ∨
          ∃ y d, y ∈ t.freeVariables ∧ env.lookup y = some d ∧ x ∈ d.freeVariables := by
  refine ⟨gatherFree_eq t, fun x => mem_freeVariables.symm,
    fun x r h => freeVariables_substitute h r, fun x r h => substitute_of_not_occursFree h r,
    ?_, ?_, ?_⟩
  · intro s n u hu x hx
    rw [mem_freeVariables] at hx ⊢
    obtain ⟨us, hrun⟩ := Strategy.exists_run_of_mem_steps hu
    exact hrun.occursFree hx
  · intro s budget u hu x hx
    rw [mem_freeVariables] at hx ⊢
    exact Strategy.occursFree_of_reduce hu hx
  · intro env x
    simp only [mem_freeVariables]
    exact Environment.occursFree_resolve

/-- A binder is renamed for a name, another name is not there to be replaced, and a definition is
put in.  Both terms reduce to one without their binder. -/
theorem freeVariables_exact_renamed :
    let t := app (abs "y" (app (var "x") (var "y"))) (var "z")
    let u := app (abs "y1" (app (var "y") (var "y1"))) (var "z")
    let v := app (var "x") (var "z")
    let w := app (var "y") (var "z")
    let env := (∅ : Environment).store "x" (var "z")
    (t.occursFree "x" ∧ t.substitute "x" (var "y") = u ∧
        u.freeVariables = t.freeVariables.erase "x" ∪ (var "y").freeVariables) ∧
      (¬ t.occursFree "y" ∧ t.substitute "y" (var "x") = t) ∧
      (some v ∈ Strategy.callByName.steps 2 t ∧ ∀ x ∈ v.freeVariables, x ∈ t.freeVariables) ∧
      (Strategy.callByValue.reduce 1 u = .ok w ∧ ∀ x ∈ w.freeVariables, x ∈ u.freeVariables) ∧
      "z" ∈ (env.resolve (var "x")).freeVariables := by
  intro t u v w env
  have hx : t.occursFree "x" := by decide +kernel
  have hy : ¬ t.occursFree "y" := by decide +kernel
  have hu : t.substitute "x" (var "y") = u := by decide +kernel
  have hv : some v ∈ Strategy.callByName.steps 2 t := by decide +kernel
  have hw : Strategy.callByValue.reduce 1 u = .ok w := by decide +kernel
  have hz : env.lookup "x" = some (var "z") := by decide +kernel
  obtain ⟨-, -, hreplaced, hkept, hsteps, -, -⟩ := freeVariables_exact t
  obtain ⟨-, -, -, -, -, hreduce, -⟩ := freeVariables_exact u
  obtain ⟨-, -, -, -, -, -, hresolve⟩ := freeVariables_exact (var "x")
  have hfree : u.freeVariables = t.freeVariables.erase "x" ∪ (var "y").freeVariables := by
    rw [← hu]
    exact hreplaced "x" (var "y") hx
  refine ⟨⟨hx, hu, hfree⟩, ⟨hy, hkept "y" (var "x") hy⟩, ⟨hv, hsteps _ 2 v hv⟩,
    ⟨hw, hreduce _ 1 w hw⟩, ?_⟩
  exact (hresolve env "z").2 (Or.inr ⟨"x", var "z", by decide +kernel, hz, by decide +kernel⟩)

end NamedLambda
