/-
NamedLambda/Proofs/Reduction/Completeness.lean

The strategies that try a node before its parts are complete for their stopping forms.

A reduction may contract redexes anywhere, in arguments and bodies that the strategy never enters,
before the head of the term comes out.  If it ends in the stopping form of the strategy all the
same, the strategy comes to a stop by itself.  It need not stop in the same term, for it leaves
alone what lies outside of its region; but the end of the reduction can be reached from there.

What is needed for this is only that the search is an outermost one.  The deep head spine is one,
too, although it searches in two passes (`exists_step_eq`).  The innermost strategies are not
complete: they go on forever with an argument that is not used.
-/
import NamedLambda.Proofs.Reduction.Outermost
import NamedLambda.Proofs.Reduction.StoppingForm

namespace NamedLambda

namespace Strategy

open Term

variable {s : Strategy}

/-- The strategies that try a node before its parts. -/
def IsOutermost : Strategy → Prop
  | callByName => True
  | normalOrder _ => True
  | headSpine _ => True
  | callByValue => False
  | applicativeOrder _ => False

theorem IsOutermost.exists_step_eq (h : s.IsOutermost) :
    ∃ bodies arguments, s.step = outermostStep bodies arguments := by
  cases s with
  | callByName => exact ⟨false, false, rfl⟩
  | normalOrder deep => exact ⟨deep, true, rfl⟩
  | headSpine deep =>
      cases deep with
      | false => exact ⟨true, false, rfl⟩
      | true => exact ⟨true, true, step_headSpine_deep⟩
  | callByValue => cases h
  | applicativeOrder deep => cases h

/-- **An outermost strategy comes to its stopping form** from every term that reduces to such a
form in any way.  After the steps that lead there no request gives a term, and where the reduction
has ended can still be reached. -/
theorem exists_run_of_stoppingForm (hs : s.IsOutermost) {t n : Term} (hn : s.StoppingForm n)
    (h : t.ReducesAlpha n) :
    ∃ (us : List Term) (r : Term),
      s.Run t us r ∧ s.StoppingForm r ∧ r.ReducesAlpha n ∧
        ∀ k, s.steps (us.length + k) t = us.map some ++ List.replicate k none := by
  obtain ⟨bodies, arguments, hstep⟩ := hs.exists_step_eq
  obtain ⟨us, r, hrun, hr, hrn⟩ := exists_run_of_reducesAlpha hstep (step_eq_none_iff.2 hn) h
  refine ⟨us, r, hrun, step_eq_none_iff.1 hr, hrn, ?_⟩
  intro k
  rw [hrun.steps_eq, steps_eq_replicate hr]

/-- The reduction works in a body and in an argument before the head comes out, and ends in another
head normal form than the head spine does.  The argument that the head discards has no normal
form. -/
theorem headSpine_stops_before_argument :
    let i := abs "z" (var "z")
    let ω := abs "x" (app (var "x") (var "x"))
    let t := abs "w" (app (abs "f" (app (var "f") (app ω ω)))
      (abs "y" (app (var "w") (app i i))))
    let n := abs "w" (app (var "w") i)
    (headSpine false).IsOutermost ∧ (headSpine false).StoppingForm n ∧ t.ReducesAlpha n ∧
      ∃ (us : List Term) (r : Term),
        (headSpine false).Run t us r ∧ (headSpine false).StoppingForm r ∧ r.ReducesAlpha n ∧
          ∀ k, (headSpine false).steps (us.length + k) t =
            us.map some ++ List.replicate k none := by
  intro i ω t n
  have hn : (headSpine false).StoppingForm n := step_eq_none_iff.1 (by decide +kernel)
  -- The argument is reduced under its binder first.
  let t₁ := abs "w" (app (abs "f" (app (var "f") (app ω ω))) (abs "y" (app (var "w") i)))
  let t₂ := abs "w" (app (abs "y" (app (var "w") i)) (app ω ω))
  have h₁ : t.Beta t₁ := .abs _ (.appRight _ (.abs _ (.appRight _ (.contract (by decide +kernel)))))
  have h₂ : t₁.Beta t₂ := .abs _ (.contract (by decide +kernel))
  have h₃ : t₂.Beta n := .abs _ (.contract (by decide +kernel))
  have hreduces : t.Reduces n := .head h₁ (.head h₂ (.single h₃))
  have hs : (headSpine false).IsOutermost := trivial
  exact ⟨hs, hn, hreduces.toAlpha, exists_run_of_stoppingForm hs hn hreduces.toAlpha⟩

/-! ### Innermost strategies -/

/-- A run along a step that changes nothing stays where it is. -/
theorem Run.eq_of_step_self {t v : Term} {us : List Term} (h : s.Run t us v)
    (ht : s.step t = some t) : v = t := by
  induction h with
  | nil t => rfl
  | cons hstep _ ih =>
      obtain rfl := Option.some.inj (ht.symm.trans hstep)
      exact ih ht

/-- Call-by-value goes on forever with an argument that the body has no use for. -/
theorem callByValue_not_complete :
    let ω := abs "x" (app (var "x") (var "x"))
    let t := app (abs "x" (var "y")) (app ω ω)
    t.Reduces (var "y") ∧ callByValue.StoppingForm (var "y") ∧
      ¬ ∃ us r, callByValue.Run t us r ∧ callByValue.StoppingForm r := by
  intro ω t
  have hself : callByValue.step t = some t := by decide +kernel
  refine ⟨.single (.contract (by decide +kernel)), step_eq_none_iff.1 rfl, ?_⟩
  rintro ⟨us, r, hrun, hr⟩
  obtain rfl := hrun.eq_of_step_self hself
  rw [step_eq_none_iff.2 hr] at hself
  cases hself

end Strategy

end NamedLambda
