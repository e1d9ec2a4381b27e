/-
NamedLambda/Proofs/Reduction/Comparison.lean

Where the strategies agree step by step.

A search that passes over arguments goes down one path, from the root along operators and, if it
enters them, bodies.  A search of the same order in a larger region goes down that path first, so a
redex on it is the first one for both (`outermostStep_of_head`).

The head spine in two passes contracts what one leftmost-outermost pass contracts.  A head redex is
the first redex of the whole term.  If there is none, the operators on the way to the head are no
abstractions, and then the second pass meets the arguments in the order in which the one pass does
(`argumentStep_eq_outermostStep`).  This has to be proved of all terms at once, for an argument is
searched in two passes again.

Strategies with the same steps have the same runs, so under a budget they end alike, and also fail
alike but for the name of the strategy (`runFrom_of_step_eq`).

Main result: `step_comparison`.
-/
import NamedLambda.Proofs.Reduction.Search
import NamedLambda.Reduction.Bounded

namespace NamedLambda

namespace Term

/-! ### Searches in a larger region -/

/-- A redex that is found without entering arguments is found first by every outermost search that
enters as many bodies. -/
theorem outermostStep_of_head {bodies bodies' : Bool} (hbodies : bodies = true → bodies' = true)
    (arguments : Bool) {t u : Term} (h : t.outermostStep bodies false = some u) :
    t.outermostStep bodies' arguments = some u := by
  induction t generalizing u with
  | var x => cases h
  | abs x b ih =>
      rw [outermostStep] at h ⊢
      split at h
      · next hb =>
          obtain ⟨b', hb', rfl⟩ := Option.map_eq_some_iff.1 h
          rw [if_pos (hbodies hb), ih hb']
          rfl
      · cases h
  | app f a ihf _ =>
      rw [outermostStep_app, Option.or_eq_some_iff, Option.or_eq_some_iff] at h
      rw [outermostStep_app]
      rcases h with (hc | ⟨hc, hf⟩) | ⟨-, ha⟩
      · rw [hc]
        rfl
      · obtain ⟨f', hf', rfl⟩ := Option.map_eq_some_iff.1 hf
        rw [hc, ihf hf']
        rfl
      · cases ha

/-! ### Two passes and one -/

theorem outermostStep_of_headStep {t u : Term} (h : t.headStep = some u) :
    t.outermostStep true true = some u :=
  outermostStep_of_head (fun h => h) true h

/-- Where the head has no redex, the search through the arguments is the one that goes
everywhere. -/
theorem argumentStep_eq_outermostStep {t : Term} (h : t.headStep = none) :
    t.argumentStep = t.outermostStep true true := by
  induction t with
  | var x => rfl
  | abs x b ih => rw [argumentStep, ih (Option.map_eq_none_iff.1 h), outermostStep, if_pos rfl]
  | app f a ihf iha =>
      rw [headStep, outermostStep_app, Option.or_eq_none_iff, Option.or_eq_none_iff,
        Option.map_eq_none_iff] at h
      obtain ⟨⟨hc, hf⟩, -⟩ := h
      -- The argument may have a head redex of its own, so both passes are needed for it.
      have ha : a.spineStep = a.outermostStep true true := by
        rw [spineStep_eq]
        rcases hhead : a.headStep with - | a'
        · rw [Option.none_or, iha hhead]
        · rw [Option.some_or, outermostStep_of_headStep hhead]
      rw [argumentStep_app, ihf hf, ha, outermostStep_app, hc, Option.none_or, if_pos rfl]

/-- The head spine in two passes takes the steps of the leftmost-outermost search. -/
theorem spineStep_eq_outermostStep (t : Term) : t.spineStep = t.outermostStep true true := by
  rw [spineStep_eq]
  rcases h : t.headStep with - | u
  · rw [Option.none_or, argumentStep_eq_outermostStep h]
  · rw [Option.some_or, outermostStep_of_headStep h]

end Term

namespace Strategy

open Term

/-! ### Strategies with the same steps -/

/-- Strategies with the same steps reduce alike: both end well with one result, or both fail after
the same number of steps, each under its own name. -/
theorem runFrom_of_step_eq {s s' : Strategy} (h : s.step = s'.step) {β : Type}
    (gather : β → Term → β) (left taken : Nat) (acc : β) (t : Term) :
    (∃ r, s.runFrom gather left taken acc t = .ok r ∧
        s'.runFrom gather left taken acc t = .ok r) ∨
      ∃ k, s.runFrom gather left taken acc t = .error ⟨s, k⟩ ∧
        s'.runFrom gather left taken acc t = .error ⟨s', k⟩ := by
  induction left generalizing taken acc t with
  | zero =>
      rw [runFrom, runFrom, h]
      rcases s'.step t with - | u
      · exact Or.inl ⟨acc, rfl, rfl⟩
      · exact Or.inr ⟨taken, rfl, rfl⟩
  | succ left ih =>
      rw [runFrom, runFrom, h]
      rcases s'.step t with - | u
      · exact Or.inl ⟨acc, rfl, rfl⟩
      · cases hu : u.withinLimits with
        | true =>
            simp only [hu, if_true]
            exact ih (taken + 1) (gather acc u) u
        | false =>
            simp only [hu]
            exact Or.inr ⟨taken + 1, rfl, rfl⟩

theorem step_headSpine_deep : (headSpine true).step = (normalOrder true).step :=
  funext spineStep_eq_outermostStep

/-! ### The comparison -/

/-- **How the steps of the strategies are related.**  The deep head spine takes the steps of deep
normal order, and call-by-value those of shallow applicative order.  A step of call-by-name is also
the step of normal order and of the head spine, shallow or deep, and a step of the shallow head
spine is that of deep normal order.  So the strategies of the first two pairs have the same results
under every budget, or fail after the same number of steps. -/
theorem step_comparison (t : Term) :
    (headSpine true).step t = (normalOrder true).step t ∧
      callByValue.step t = (applicativeOrder false).step t ∧
      (∀ u, callByName.step t = some u →
        ∀ deep, (normalOrder deep).step t = some u ∧ (headSpine deep).step t = some u) ∧
      (∀ u, (headSpine false).step t = some u → (normalOrder true).step t = some u) ∧
      ∀ budget : Nat,
        ((∃ r, (headSpine true).reduce budget t = .ok r ∧
            (normalOrder true).reduce budget t = .ok r) ∨
          ∃ k, (headSpine true).reduce budget t = .error ⟨headSpine true, k⟩ ∧
            (normalOrder true).reduce budget t = .error ⟨normalOrder true, k⟩) ∧
        ((∃ r, callByValue.reduce budget t = .ok r ∧
            (applicativeOrder false).reduce budget t = .ok r) ∨
          ∃ k, callByValue.reduce budget t = .error ⟨callByValue, k⟩ ∧
            (applicativeOrder false).reduce budget t = .error ⟨applicativeOrder false, k⟩) := by
  -- Without a deep variant of its own, call-by-value is one of the innermost searches.
  have hvalue : callByValue.step = (applicativeOrder false).step := rfl
  refine ⟨congrFun step_headSpine_deep t, congrFun hvalue t, ?_, ?_, ?_⟩
  · intro u hu deep
    have hnormal : ∀ bodies, t.outermostStep bodies true = some u :=
      fun bodies => outermostStep_of_head (fun h => by cases h) true hu
    have hhead : t.headStep = some u := outermostStep_of_head (fun h => by cases h) false hu
    refine ⟨hnormal deep, ?_⟩
    cases deep with
    | false => exact hhead
    | true => exact (spineStep_eq_outermostStep t).trans (hnormal true)
  · intro u hu
    exact outermostStep_of_headStep hu
  · intro budget
    exact ⟨runFrom_of_step_eq step_headSpine_deep _ budget 0 t t,
      runFrom_of_step_eq hvalue _ budget 0 t t⟩

/-- The redex at the root comes before those in the argument and in the body.  Under an abstraction
call-by-name has none, and the head comes before the argument. -/
theorem step_comparison_nested :
    let i := abs "z" (var "z")
    let t := app (abs "x" (app i (var "x"))) (app i (var "y"))
    let u := app i (app i (var "y"))
    let v := abs "x" (app (app i (var "x")) (app i (var "y")))
    let w := abs "x" (app (var "x") (app i (var "y")))
    callByName.step t = some u ∧
      (∀ deep, (normalOrder deep).step t = some u ∧ (headSpine deep).step t = some u) ∧
      callByName.step v = none ∧ (headSpine false).step v = some w ∧
      (normalOrder true).step v = some w := by
  intro i t u v w
  have ht : callByName.step t = some u := by decide +kernel
  have hv : (headSpine false).step v = some w := by decide +kernel
  obtain ⟨-, -, hname, -, -⟩ := step_comparison t
  obtain ⟨-, -, -, hhead, -⟩ := step_comparison v
  exact ⟨ht, hname u ht, rfl, hv, hhead w hv⟩

end Strategy

end NamedLambda
