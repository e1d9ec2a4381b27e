/-
NamedLambda/Proofs/Reduction/Outermost.lean

The outermost searches come to their stopping forms, and normal order to the normal form.

What a search of this kind does is determined up to bound names: it finds a redex in a term exactly
where the nameless search finds one in its nameless form (`map_outermostStep_nameless`).  So the
runs of a strategy that searches in this way can be read off nameless runs, and those come to a stop
whenever there is a stopping form to be reached.
-/
import NamedLambda.Proofs.Reduction.Correspondence
import NamedLambda.Proofs.Reduction.Budget

namespace NamedLambda

namespace Strategy

open Term

variable {s : Strategy} {bodies arguments : Bool}

/-! ### Runs that come to a stop -/

/-- A run in nameless terms is the nameless view of a run. -/
theorem exists_run_of_outermost (hs : s.step = outermostStep bodies arguments) {t : Term}
    {n : Nameless} (h : Nameless.Outermost bodies arguments t.nameless n) :
    ∃ us r, s.Run t us r ∧ r.nameless = n := by
  generalize hm : t.nameless = m at h
  induction h using Relation.ReflTransGen.head_induction_on generalizing t with
  | refl => exact ⟨[], t, .nil t, hm⟩
  | @head m m' hstep _ ih =>
      subst hm
      rw [← map_outermostStep_nameless] at hstep
      obtain ⟨u, hu, hum⟩ := Option.map_eq_some_iff.1 hstep
      obtain ⟨us, r, hrun, hr⟩ := ih hum
      exact ⟨u :: us, r, .cons ((congrFun hs t).trans hu) hrun, hr⟩

/-- **An outermost search comes to a stop** if there is a stopping form to be reached at all, and
that form can still be reached from where it stops. -/
theorem exists_run_of_reducesAlpha (hs : s.step = outermostStep bodies arguments) {t n : Term}
    (hn : s.step n = none) (h : t.ReducesAlpha n) :
    ∃ us r, s.Run t us r ∧ s.step r = none ∧ r.ReducesAlpha n := by
  have hstop : ∀ u : Term,
      s.step u = none ↔ u.nameless.outermostStep bodies arguments = none := by
    intro u
    rw [hs, ← map_outermostStep_nameless, Option.map_eq_none_iff]
  obtain ⟨m, htm, hm, hmn⟩ :=
    (Nameless.Standard.of_reduces h.nameless).exists_stop ((hstop n).1 hn)
  obtain ⟨us, r, hrun, rfl⟩ := exists_run_of_outermost hs htm
  -- The rest of the standard reduction gives `n` only up to bound names.
  exact ⟨us, r, hrun, (hstop r).2 hm, .of_nameless hmn.reduces⟩

/-! ### Normal order -/

/-- A term with a normal form has a run of normal order to it. -/
theorem exists_run_of_normal {t n : Term} (hn : n.Normal) (h : t.ReducesAlpha n) :
    ∃ us r, (normalOrder true).Run t us r ∧ (normalOrder true).step r = none ∧ r.alphaEq n := by
  have hstop : (normalOrder true).step n = none := step_eq_none_of_normal _ hn
  obtain ⟨us, r, hrun, hr, hrn⟩ := exists_run_of_reducesAlpha rfl hstop h
  have hnormal : r.Normal := (step_eq_none_iff_normal rfl).1 hr
  exact ⟨us, r, hrun, hr, ReducesAlpha.normal_unique .refl hrn hnormal hn⟩

/-- **Normal order finds the normal form** whenever there is one.  Its steps come to an end in the
normal form, up to bound names, and no request after them gives a term.  Under any budget for that
many steps the reduction ends well exactly if no term on the way leaves the limits. -/
theorem normalOrder_normalizes {t n : Term} (hn : n.Normal) (h : t.ReducesAlpha n) :
    ∃ (us : List Term) (r : Term),
      (normalOrder true).Run t us r ∧ r.alphaEq n ∧
        (∀ k, (normalOrder true).steps (us.length + k) t =
          us.map some ++ List.replicate k none) ∧
        ∀ budget, us.length ≤ budget →
          ((normalOrder true).reduce budget t = .ok r ↔ ∀ u ∈ us, u.withinLimits) := by
  have hstop : (normalOrder true).step n = none := step_eq_none_of_normal _ hn
  obtain ⟨us, r, hrun, hr, hrn⟩ := exists_run_of_reducesAlpha rfl hstop h
  have hnormal : r.Normal := (step_eq_none_iff_normal rfl).1 hr
  refine ⟨us, r, hrun, ReducesAlpha.normal_unique .refl hrn hnormal hn, ?_, ?_⟩
  · intro k
    rw [hrun.steps_eq, steps_eq_replicate hr]
  · intro budget hbudget
    rw [hrun.reduce_eq_iff hr budget]
    exact and_iff_right hbudget

/-- Normal order discards an argument that has no normal form. -/
theorem normalOrder_discards_argument :
    let ω := abs "x" (app (var "x") (var "x"))
    let t := app (abs "x" (abs "y" (var "y"))) (app ω ω)
    let n := abs "z" (var "z")
    n.Normal ∧ t.ReducesAlpha n ∧
      ∃ (us : List Term) (r : Term),
        (normalOrder true).Run t us r ∧ r.alphaEq n ∧
          (∀ k, (normalOrder true).steps (us.length + k) t =
            us.map some ++ List.replicate k none) ∧
          ∀ budget, us.length ≤ budget →
            ((normalOrder true).reduce budget t = .ok r ↔ ∀ u ∈ us, u.withinLimits) := by
  intro ω t n
  have hn : n.Normal := normal_abs_iff.2 (normal_var "z")
  have hcontract : t.contract = some (abs "y" (var "y")) := by decide +kernel
  have halpha : (abs "y" (var "y")).alphaEq n := by decide +kernel
  have h : t.ReducesAlpha n :=
    .head (Or.inl (.contract hcontract)) (.single (Or.inr halpha))
  exact ⟨hn, h, normalOrder_normalizes hn h⟩

end Strategy

end NamedLambda
