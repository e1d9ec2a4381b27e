/-
NamedLambda/Proofs/Reduction/StoppingForm.lean

Where the strategies stop, as grammars.

A search that does not find a redex says something about every place it has looked at, nested as the
search is.  A grammar says it once: a term is in the stopping form if it is an abstraction, or a
variable that is applied to any number of arguments.  What the body and the arguments have to be
depends on whether the search enters them, so the four grammars are one with two parameters
(`Form`).

Applications nest to the left, and the search goes down along them one argument at a time.  That it
finds nothing in a spine exactly if it finds nothing in any argument (`outermostStep_spine`) turns
this into a statement about the list of arguments.  The innermost searches stop where the outermost
ones of the same region do, for it does not matter in which order one looks for what is not there.

Main result: `step_eq_none_iff_stoppingForm`.
-/
import NamedLambda.Proofs.Reduction.Comparison
import NamedLambda.Proofs.Reduction.Budget

namespace NamedLambda

namespace Term

/-! ### Spines -/

/-- The variable `x` applied to arguments, the first one innermost. -/
def spine (x : Name) (args : List Term) : Term :=
  args.foldl app (var x)

@[simp] theorem spine_nil (x : Name) : spine x [] = var x := rfl

@[simp] theorem spine_concat (x : Name) (args : List Term) (a : Term) :
    spine x (args ++ [a]) = app (spine x args) a :=
  List.foldl_concat ..

@[simp] theorem isAbs_spine (x : Name) (args : List Term) : (spine x args).isAbs = false := by
  induction args using List.reverseRecOn with
  | nil => rfl
  | append_singleton args a _ => rw [spine_concat]; rfl

/-! ### The grammars -/

/-- The terms that are generated by

    F ::= \x.B | x A₁ … Aₖ

where `B` is an `F` again if `bodies` says so and any term otherwise, and the `Aᵢ` are if `arguments`
says so. -/
inductive Form (bodies arguments : Bool) : Term → Prop
  | abs (x : Name) {b : Term} : (bodies = true → Form bodies arguments b) →
      Form bodies arguments (abs x b)
  | spine (x : Name) {args : List Term} :
      (arguments = true → ∀ a ∈ args, Form bodies arguments a) →
      Form bodies arguments (spine x args)

/-! ### Searches that find nothing -/

variable {bodies arguments : Bool}

theorem outermostStep_abs_eq_none_iff {x : Name} {b : Term} :
    (abs x b).outermostStep bodies arguments = none ↔
      (bodies = true → b.outermostStep bodies arguments = none) := by
  rw [outermostStep]
  cases bodies <;> simp

theorem outermostStep_app_eq_none_iff {f a : Term} :
    (app f a).outermostStep bodies arguments = none ↔
      f.isAbs = false ∧ f.outermostStep bodies arguments = none ∧
        (arguments = true → a.outermostStep bodies arguments = none) := by
  rw [outermostStep_app, Option.or_eq_none_iff, Option.or_eq_none_iff, contract_app_eq_none_iff,
    Option.map_eq_none_iff, and_assoc]
  cases arguments <;> simp

/-- In a spine there are only the arguments to be searched. -/
theorem outermostStep_spine {x : Name} {args : List Term} :
    (spine x args).outermostStep bodies arguments = none ↔
      (arguments = true → ∀ a ∈ args, a.outermostStep bodies arguments = none) := by
  induction args using List.reverseRecOn with
  | nil => simp [outermostStep]
  | append_singleton args a ih =>
      rw [spine_concat, outermostStep_app_eq_none_iff, ih]
      simp only [isAbs_spine, true_and, List.forall_mem_append, List.forall_mem_singleton]
      exact forall_and.symm

/-- An outermost search finds nothing exactly in the terms of its grammar. -/
theorem outermostStep_eq_none_iff_form {t : Term} :
    t.outermostStep bodies arguments = none ↔ t.Form bodies arguments := by
  constructor
  · intro h
    induction t with
    | var x =>
        show Form bodies arguments (spine x [])
        exact .spine x fun _ => by simp
    | abs x b ih => exact .abs x fun hb => ih (outermostStep_abs_eq_none_iff.1 h hb)
    | app f a ihf iha =>
        obtain ⟨hf, hfn, han⟩ := outermostStep_app_eq_none_iff.1 h
        -- The operator is in the form as well, and since it is no abstraction, it is a spine.
        cases ihf hfn with
        | abs x _ => cases hf
        | @spine x args hargs =>
            rw [← spine_concat]
            refine .spine x fun ha => ?_
            rw [List.forall_mem_append, List.forall_mem_singleton]
            exact ⟨hargs ha, iha (han ha)⟩
  · intro h
    induction h with
    | abs x _ ih => exact outermostStep_abs_eq_none_iff.2 ih
    | spine x _ ih => exact outermostStep_spine.2 ih

/-- The order of the search does not matter where there is nothing to be found. -/
theorem innermostStep_eq_none_iff {t : Term} :
    t.innermostStep bodies = none ↔ t.outermostStep bodies true = none := by
  induction t with
  | var x => rfl
  | abs x b ih =>
      rw [innermostStep, outermostStep]
      cases bodies with
      | false => rfl
      | true => simp only [if_true, Option.map_eq_none_iff, ih]
  | app f a ihf iha =>
      simp only [innermostStep_app, outermostStep_app, if_true, Option.or_eq_none_iff,
        Option.map_eq_none_iff, ihf, iha]
      tauto

end Term

namespace Strategy

/-! ### The stopping forms -/

/-- The stopping form of a strategy:

* call-by-name, `\x.M` or `x M₁ … Mₖ` with any terms `M` and `Mᵢ`;
* call-by-value and the shallow normal and applicative orders, `W ::= \x.M | x W₁ … Wₖ`;
* the shallow head spine, `H ::= \x.H | x M₁ … Mₖ`;
* the deep strategies, `N ::= \x.N | x N₁ … Nₖ`. -/
def StoppingForm : Strategy → Term → Prop
  | callByName => Term.Form false false
  | callByValue => Term.Form false true
  | normalOrder deep => Term.Form deep true
  | applicativeOrder deep => Term.Form deep true
  | headSpine deep => Term.Form true deep

theorem step_eq_none_iff {s : Strategy} {t : Term} : s.step t = none ↔ s.StoppingForm t := by
  cases s with
  | callByValue => exact Term.innermostStep_eq_none_iff.trans Term.outermostStep_eq_none_iff_form
  | callByName => exact Term.outermostStep_eq_none_iff_form
  | normalOrder deep => exact Term.outermostStep_eq_none_iff_form
  | applicativeOrder deep =>
      exact Term.innermostStep_eq_none_iff.trans Term.outermostStep_eq_none_iff_form
  | headSpine deep =>
      cases deep with
      | false => exact Term.outermostStep_eq_none_iff_form
      | true =>
          rw [step_headSpine_deep]
          exact Term.outermostStep_eq_none_iff_form

/-- **Every strategy stops exactly at its stopping form.**  Where the strategy is deep, this is a
term without any redex.  So a term that is reduced under a budget, if that ends well, is reduced to
the stopping form. -/
theorem step_eq_none_iff_stoppingForm (s : Strategy) (t : Term) :
    (s.step t = none ↔ s.StoppingForm t) ∧
      (s.isDeep → (s.StoppingForm t ↔ t.Normal)) ∧
      ∀ budget r, s.reduce budget t = .ok r → s.StoppingForm r := by
  refine ⟨step_eq_none_iff, ?_, ?_⟩
  · intro hs
    rw [← step_eq_none_iff]
    exact step_eq_none_iff_normal hs
  · intro budget r hr
    obtain ⟨-, -, hstop, -⟩ := reduce_eq_ok_iff.1 hr
    exact step_eq_none_iff.1 hstop

/-- The head spine stops before the redex in the argument unless it is deep. -/
theorem stoppingForm_shallow_and_deep :
    let i := Term.abs "z" (.var "z")
    let t := Term.app (.abs "f" (.abs "x" (.app (.var "f") (.app i (.var "x"))))) (.var "y")
    let r := Term.abs "x" (.app (.var "y") (.app i (.var "x")))
    let n := Term.abs "x" (.app (.var "y") (.var "x"))
    ((headSpine false).reduce 1 t = .ok r ∧ (headSpine false).StoppingForm r ∧
        ¬ (headSpine true).StoppingForm r) ∧
      ((headSpine true).isDeep ∧ (headSpine true).reduce 2 t = .ok n ∧ n.Normal) := by
  intro i t r n
  have hr : (headSpine false).reduce 1 t = .ok r := by decide +kernel
  have hn : (headSpine true).reduce 2 t = .ok n := by decide +kernel
  have hstep : (headSpine true).step r = some n := by decide +kernel
  obtain ⟨-, -, hshallow⟩ := step_eq_none_iff_stoppingForm (headSpine false) t
  obtain ⟨hstop, -, -⟩ := step_eq_none_iff_stoppingForm (headSpine true) r
  obtain ⟨-, -, hdeep⟩ := step_eq_none_iff_stoppingForm (headSpine true) t
  obtain ⟨-, hnormal, -⟩ := step_eq_none_iff_stoppingForm (headSpine true) n
  refine ⟨⟨hr, hshallow 1 r hr, ?_⟩, rfl, hn, (hnormal rfl).1 (hdeep 2 n hn)⟩
  rw [← hstop, hstep]
  exact Option.some_ne_none n

end Strategy

end NamedLambda
