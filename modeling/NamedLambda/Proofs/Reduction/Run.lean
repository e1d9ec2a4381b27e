/-
NamedLambda/Proofs/Reduction/Run.lean

Runs of a strategy.

A run is a chain of steps, of any length and without a budget.  Since a term has at most one step, a
run to the stopping form is the only one, repeated requests give its terms and then nothing, and
bounded reduction follows it while the budget and the limits allow.
-/
import NamedLambda.Proofs.Reduction.Search
import NamedLambda.Reduction.Bounded

namespace NamedLambda

namespace Strategy

variable {s : Strategy}

/-! ### Runs -/

/-- `s.Run t us v`: from `t` the steps of `s` lead through the terms `us`, and `v` is where they
have arrived after the last of them. -/
inductive Run (s : Strategy) : Term → List Term → Term → Prop
  | nil (t : Term) : Run s t [] t
  | cons {t u v : Term} {us : List Term} :
      s.step t = some u → Run s u us v → Run s t (u :: us) v

theorem Run.reduces {t v : Term} {us : List Term} (h : s.Run t us v) : t.Reduces v := by
  induction h with
  | nil t => exact .refl
  | cons hstep _ ih => exact .head (step_beta hstep) ih

theorem Run.foldl_eq {t v : Term} {us : List Term} (h : s.Run t us v) :
    us.foldl (fun _ u => u) t = v := by
  induction h with
  | nil t => rfl
  | cons _ _ ih => exact ih

theorem Run.append {t v w : Term} {us vs : List Term} (h : s.Run t us v) (h' : s.Run v vs w) :
    s.Run t (us ++ vs) w := by
  induction h with
  | nil t => exact h'
  | cons hstep _ ih => exact .cons hstep (ih h')

/-- A run goes on in a place where every step of it is the next one of the whole term. -/
theorem Run.map {C : Term → Term} (hC : ∀ t u, s.step t = some u → s.step (C t) = some (C u))
    {t v : Term} {us : List Term} (h : s.Run t us v) : s.Run (C t) (us.map C) (C v) := by
  induction h with
  | nil t => exact .nil (C t)
  | cons hstep _ ih => exact .cons (hC _ _ hstep) ih

/-- There is only one run to the stopping form. -/
theorem Run.unique {t v v' : Term} {us us' : List Term} (h : s.Run t us v)
    (hv : s.step v = none) (h' : s.Run t us' v') (hv' : s.step v' = none) :
    us = us' ∧ v = v' := by
  induction h generalizing us' with
  | nil t =>
      cases h' with
      | nil => exact ⟨rfl, rfl⟩
      | cons hstep _ => rw [hv] at hstep; cases hstep
  | cons hstep _ ih =>
      cases h' with
      | nil => rw [hv'] at hstep; cases hstep
      | cons hstep' h' =>
          obtain rfl := Option.some.inj (hstep.symm.trans hstep')
          obtain ⟨rfl, rfl⟩ := ih hv h'
          exact ⟨rfl, rfl⟩

/-! ### The results of repeated requests -/

/-- Once the stopping form is reached, no request gives a term. -/
theorem steps_eq_replicate {v : Term} (h : s.step v = none) (n : Nat) :
    s.steps n v = List.replicate n none := by
  cases n with
  | zero => rfl
  | succ n => rw [steps, h]

theorem Run.steps_eq {t v : Term} {us : List Term} (h : s.Run t us v) (n : Nat) :
    s.steps (us.length + n) t = us.map some ++ s.steps n v := by
  induction h with
  | nil t => rw [List.length_nil, Nat.zero_add, List.map_nil, List.nil_append]
  | cons hstep _ ih =>
      rw [List.length_cons, Nat.add_right_comm, steps, hstep]
      simp only [ih, List.map_cons, List.cons_append]

theorem Run.getLast?_eq {t v : Term} {us : List Term} (h : s.Run t us v) (hus : us ≠ []) :
    us.getLast? = some v := by
  induction h with
  | nil t => exact absurd rfl hus
  | @cons t u v us hstep h ih =>
      cases us with
      | nil =>
          cases h
          rfl
      | cons w ws =>
          rw [List.getLast?_cons_cons]
          exact ih (List.cons_ne_nil w ws)

/-- `s.EndsAfter n t v`: repeated requests for a further step give `n` terms and then no more, and
the last of these terms is `v`. -/
def EndsAfter (s : Strategy) (n : Nat) (t v : Term) : Prop :=
  ∃ us : List Term, us.length = n ∧ us.getLast? = some v ∧
    ∀ k, s.steps (n + k) t = us.map some ++ List.replicate k none

theorem Run.endsAfter {t v : Term} {us : List Term} (h : s.Run t us v) (hv : s.step v = none)
    (hus : us ≠ []) : s.EndsAfter us.length t v := by
  refine ⟨us, rfl, h.getLast?_eq hus, fun k => ?_⟩
  rw [h.steps_eq, steps_eq_replicate hv]

/-! ### Bounded reduction -/

/-- Reduction goes on from where a run within the limits has led, with the rest of the budget. -/
theorem Run.runFrom_append {β : Type} {t v : Term} {us : List Term} (h : s.Run t us v)
    (hlim : ∀ u ∈ us, u.withinLimits) (gather : β → Term → β) (left taken : Nat) (acc : β) :
    s.runFrom gather (us.length + left) taken acc t =
      s.runFrom gather left (taken + us.length) (us.foldl gather acc) v := by
  induction h generalizing taken acc with
  | nil t => rw [List.length_nil, Nat.zero_add, Nat.add_zero, List.foldl_nil]
  | @cons t u v us hstep _ ih =>
      simp only [List.forall_mem_cons] at hlim
      have hrest := ih hlim.2 (taken + 1) (gather acc u)
      rw [List.length_cons, Nat.add_right_comm, runFrom, hstep]
      simp only [hlim.1, if_true, hrest, List.foldl_cons]
      rw [Nat.add_right_comm, Nat.add_assoc]

theorem runFrom_of_stop {β : Type} {v : Term} (hv : s.step v = none) (gather : β → Term → β)
    (left taken : Nat) (acc : β) : s.runFrom gather left taken acc v = .ok acc := by
  cases left with
  | zero => rw [runFrom, hv]
  | succ left => rw [runFrom, hv]

end Strategy

end NamedLambda
