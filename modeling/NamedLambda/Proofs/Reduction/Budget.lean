/-
NamedLambda/Proofs/Reduction/Budget.lean

How a reduction under a budget ends.

The steps of a strategy come to one of three ends, whatever the budget: they reach the stopping form
in time (`Finishes`), a step leaves the limits while there is budget for it (`LeavesLimits`), or the
budget is spent while a step is left to do (`SpendsBudget`).  That one of them holds is a fact about
the steps alone (`exists_end`).  Each of them says what reduction answers, so the three exclude one
another and the answer tells which one it was (`runFrom_eq_ok_iff`, `runFrom_eq_error_iff`).  What is
gathered on the way is a fold over the terms of the run, so one statement serves the last term and
the trace alike.

A larger budget makes a difference only where the budget was spent (`bounded_exact`).
-/
import NamedLambda.Church.Encoding
import NamedLambda.Proofs.Reduction.Run

namespace NamedLambda

namespace Strategy

open Term

/-! ### The three ends -/

/-- The steps of `s` lead from `t` through the terms `us` to the stopping form `r`, within the
budget and within the limits. -/
structure Finishes (s : Strategy) (budget : Nat) (t : Term) (us : List Term) (r : Term) :
    Prop where
  run : s.Run t us r
  stops : s.step r = none
  length_le : us.length ≤ budget
  within : ∀ u ∈ us, u.withinLimits

/-- The steps of `s` lead from `t` through the terms `us` to `v`, all of them within the limits.
The next step gives `u`, which is outside, and the budget has room for it. -/
structure LeavesLimits (s : Strategy) (budget : Nat) (t : Term) (us : List Term) (v u : Term) :
    Prop where
  run : s.Run t us v
  next : s.step v = some u
  length_lt : us.length < budget
  within : ∀ w ∈ us, w.withinLimits
  outside : u.withinLimits = false

/-- The steps of `s` lead from `t` through the terms `us` to `v`, all of them within the limits.
There are as many as the budget allows, and the next step gives `u`. -/
structure SpendsBudget (s : Strategy) (budget : Nat) (t : Term) (us : List Term) (v u : Term) :
    Prop where
  run : s.Run t us v
  next : s.step v = some u
  length_eq : us.length = budget
  within : ∀ w ∈ us, w.withinLimits

variable {s : Strategy} {budget : Nat} {t r u v w : Term} {us : List Term}

/-! ### One step before -/

theorem Finishes.cons (ht : s.step t = some w) (hw : w.withinLimits)
    (h : s.Finishes budget w us r) : s.Finishes (budget + 1) t (w :: us) r where
  run := .cons ht h.run
  stops := h.stops
  length_le := Nat.succ_le_succ h.length_le
  within := List.forall_mem_cons.2 ⟨hw, h.within⟩

theorem LeavesLimits.cons (ht : s.step t = some w) (hw : w.withinLimits)
    (h : s.LeavesLimits budget w us v u) : s.LeavesLimits (budget + 1) t (w :: us) v u where
  run := .cons ht h.run
  next := h.next
  length_lt := Nat.succ_lt_succ h.length_lt
  within := List.forall_mem_cons.2 ⟨hw, h.within⟩
  outside := h.outside

theorem SpendsBudget.cons (ht : s.step t = some w) (hw : w.withinLimits)
    (h : s.SpendsBudget budget w us v u) : s.SpendsBudget (budget + 1) t (w :: us) v u where
  run := .cons ht h.run
  next := h.next
  length_eq := congrArg (· + 1) h.length_eq
  within := List.forall_mem_cons.2 ⟨hw, h.within⟩

/-- **There is always one of the three ends.** -/
theorem exists_end (s : Strategy) (budget : Nat) (t : Term) :
    (∃ us r, s.Finishes budget t us r) ∨ (∃ us v u, s.LeavesLimits budget t us v u) ∨
      ∃ us v u, s.SpendsBudget budget t us v u := by
  induction budget generalizing t with
  | zero =>
      rcases hs : s.step t with - | u
      · exact .inl ⟨[], t, .nil t, hs, Nat.le_refl 0, by simp⟩
      · exact .inr (.inr ⟨[], t, u, .nil t, hs, rfl, by simp⟩)
  | succ budget ih =>
      rcases hs : s.step t with - | w
      · exact .inl ⟨[], t, .nil t, hs, Nat.zero_le _, by simp⟩
      · cases hw : w.withinLimits with
        | false =>
            exact .inr (.inl ⟨[], t, w, .nil t, hs, Nat.succ_pos budget, by simp, hw⟩)
        | true =>
            -- The rest of the steps comes to the same end.
            rcases ih w with ⟨us, r, h⟩ | ⟨us, v, u, h⟩ | ⟨us, v, u, h⟩
            · exact .inl ⟨w :: us, r, h.cons hs hw⟩
            · exact .inr (.inl ⟨w :: us, v, u, h.cons hs hw⟩)
            · exact .inr (.inr ⟨w :: us, v, u, h.cons hs hw⟩)

/-! ### What reduction answers -/

section Answers

variable {β : Type} (gather : β → Term → β) (taken : Nat) (acc : β)

theorem Finishes.runFrom_eq (h : s.Finishes budget t us r) :
    s.runFrom gather budget taken acc t = .ok (us.foldl gather acc) := by
  obtain ⟨rest, hbudget⟩ := Nat.exists_eq_add_of_le h.length_le
  rw [hbudget, h.run.runFrom_append h.within, runFrom_of_stop h.stops]

theorem LeavesLimits.runFrom_eq (h : s.LeavesLimits budget t us v u) :
    s.runFrom gather budget taken acc t = .error ⟨s, taken + (us.length + 1)⟩ := by
  obtain ⟨rest, hrest⟩ := Nat.exists_eq_add_of_lt h.length_lt
  have hbudget : budget = us.length + (rest + 1) := by omega
  rw [hbudget, h.run.runFrom_append h.within, runFrom, h.next]
  simp only [h.outside]
  rfl

theorem SpendsBudget.runFrom_eq (h : s.SpendsBudget budget t us v u) :
    s.runFrom gather budget taken acc t = .error ⟨s, taken + budget⟩ := by
  have hrest := h.run.runFrom_append h.within gather 0 taken acc
  rw [Nat.add_zero, h.length_eq] at hrest
  rw [hrest, runFrom, h.next]

/-- Reduction that ends well has followed a run. -/
theorem runFrom_eq_ok_iff {b : β} :
    s.runFrom gather budget taken acc t = .ok b ↔
      ∃ us r, s.Finishes budget t us r ∧ b = us.foldl gather acc := by
  constructor
  · intro hb
    rcases s.exists_end budget t with ⟨us, r, h⟩ | ⟨us, v, u, h⟩ | ⟨us, v, u, h⟩
    · rw [h.runFrom_eq] at hb
      exact ⟨us, r, h, (Except.ok.inj hb).symm⟩
    · rw [h.runFrom_eq] at hb
      cases hb
    · rw [h.runFrom_eq] at hb
      cases hb
  · rintro ⟨us, r, h, rfl⟩
    exact h.runFrom_eq gather taken acc

/-- Reduction is given up in two cases, and what it has gathered by then has no part in it. -/
theorem runFrom_eq_error_iff {e : Divergence} :
    s.runFrom gather budget taken acc t = .error e ↔
      (∃ us v u, s.LeavesLimits budget t us v u ∧ e = ⟨s, taken + (us.length + 1)⟩) ∨
        ∃ us v u, s.SpendsBudget budget t us v u ∧ e = ⟨s, taken + budget⟩ := by
  constructor
  · intro he
    rcases s.exists_end budget t with ⟨us, r, h⟩ | ⟨us, v, u, h⟩ | ⟨us, v, u, h⟩
    · rw [h.runFrom_eq] at he
      cases he
    · rw [h.runFrom_eq] at he
      exact .inl ⟨us, v, u, h, (Except.error.inj he).symm⟩
    · rw [h.runFrom_eq] at he
      exact .inr ⟨us, v, u, h, (Except.error.inj he).symm⟩
  · rintro (⟨us, v, u, h, rfl⟩ | ⟨us, v, u, h, rfl⟩)
    · exact h.runFrom_eq gather taken acc
    · exact h.runFrom_eq gather taken acc

end Answers

/-- **Reduction under a budget ends well exactly if** the run of the strategy comes to its stopping
form, with no more steps than the budget has and within the limits. -/
theorem reduce_eq_ok_iff : s.reduce budget t = .ok r ↔ ∃ us, s.Finishes budget t us r := by
  rw [reduce, runFrom_eq_ok_iff]
  constructor
  · rintro ⟨us, v, h, hr⟩
    obtain rfl : r = v := hr.trans h.run.foldl_eq
    exact ⟨us, h⟩
  · rintro ⟨us, h⟩
    exact ⟨us, r, h, h.run.foldl_eq.symm⟩

/-- **The trace of a reduction is its run**: it is there under the same conditions as the result. -/
theorem trace_eq_ok_iff : s.trace budget t = .ok us ↔ ∃ r, s.Finishes budget t us r := by
  -- The terms are gathered in reverse.
  have hgather : ∀ us : List Term, us.foldl (fun us u => u :: us) [] = us.reverse := fun us => by
    rw [List.foldl_flip_cons_eq_append', List.append_nil]
  constructor
  · intro h
    rw [trace] at h
    rcases hrun : s.runFrom (fun us u => u :: us) budget 0 [] t with e | gathered
    · rw [hrun] at h
      cases h
    · obtain ⟨us', r, hfinishes, rfl⟩ := (runFrom_eq_ok_iff ..).1 hrun
      rw [hrun, hgather] at h
      obtain rfl : us'.reverse.reverse = us := Except.ok.inj h
      rw [List.reverse_reverse]
      exact ⟨r, hfinishes⟩
  · rintro ⟨r, h⟩
    rw [trace, h.runFrom_eq, hgather]
    exact congrArg Except.ok us.reverse_reverse

theorem reduce_eq_error_iff {e : Divergence} :
    s.reduce budget t = .error e ↔
      (∃ us v u, s.LeavesLimits budget t us v u ∧ e = ⟨s, us.length + 1⟩) ∨
        ∃ us v u, s.SpendsBudget budget t us v u ∧ e = ⟨s, budget⟩ := by
  rw [reduce, runFrom_eq_error_iff]
  simp only [Nat.zero_add]

/-- The trace is given up when the reduction is. -/
theorem trace_eq_error_iff {e : Divergence} :
    s.trace budget t = .error e ↔ s.reduce budget t = .error e := by
  have hsame : s.runFrom (fun us u => u :: us) budget 0 [] t = .error e ↔
      s.reduce budget t = .error e := by
    rw [reduce, runFrom_eq_error_iff, runFrom_eq_error_iff]
  rw [← hsame, trace]
  rcases s.runFrom (fun us u => u :: us) budget 0 [] t with e' | us
  · simp [Except.map]
  · simp [Except.map]

/-- Where the run to the stopping form is known, only its length and its terms matter. -/
theorem Run.reduce_eq_iff (h : s.Run t us r) (hr : s.step r = none) (budget : Nat) :
    s.reduce budget t = .ok r ↔ us.length ≤ budget ∧ ∀ u ∈ us, u.withinLimits := by
  rw [reduce_eq_ok_iff]
  constructor
  · rintro ⟨us', hfinishes⟩
    obtain ⟨rfl, -⟩ := h.unique hr hfinishes.run hr
    exact ⟨hfinishes.length_le, hfinishes.within⟩
  · rintro ⟨hlen, hlim⟩
    exact ⟨us, h, hr, hlen, hlim⟩

/-! ### The first step -/

/-- The first step costs one unit of the budget, and has to stay within the limits. -/
theorem reduce_succ_eq_ok_iff (hu : s.step t = some u) :
    s.reduce (budget + 1) t = .ok r ↔ u.withinLimits ∧ s.reduce budget u = .ok r := by
  simp only [reduce_eq_ok_iff]
  constructor
  · rintro ⟨us, hrun, hr, hlen, hlim⟩
    cases hrun with
    | nil =>
        rw [hu] at hr
        cases hr
    | @cons _ v _ us hstep hrun =>
        obtain rfl := Option.some.inj (hu.symm.trans hstep)
        simp only [List.forall_mem_cons] at hlim
        exact ⟨hlim.1, us, hrun, hr, Nat.le_of_succ_le_succ hlen, hlim.2⟩
  · rintro ⟨hlim, us, h⟩
    exact ⟨u :: us, h.cons hu hlim⟩

theorem reduce_zero_of_step (hu : s.step t = some u) : s.reduce 0 t = .error ⟨s, 0⟩ :=
  reduce_eq_error_iff.2 (.inr ⟨[], t, u, ⟨.nil t, hu, rfl, by simp⟩, rfl⟩)

/-- Reduction is given up at a step that leaves the limits. -/
theorem reduce_succ_of_not_withinLimits (hu : s.step t = some u) (hlim : u.withinLimits = false)
    (budget : Nat) : s.reduce (budget + 1) t = .error ⟨s, 1⟩ :=
  reduce_eq_error_iff.2 (.inl ⟨[], t, u, ⟨.nil t, hu, Nat.succ_pos budget, by simp, hlim⟩, rfl⟩)

/-! ### Larger budgets -/

theorem Finishes.mono {budget' : Nat} (hle : budget ≤ budget') (h : s.Finishes budget t us r) :
    s.Finishes budget' t us r :=
  { h with length_le := Nat.le_trans h.length_le hle }

theorem LeavesLimits.mono {budget' : Nat} (hle : budget ≤ budget')
    (h : s.LeavesLimits budget t us v u) : s.LeavesLimits budget' t us v u :=
  { h with length_lt := Nat.lt_of_lt_of_le h.length_lt hle }

/-- A result stays the same under a larger budget. -/
theorem reduce_mono {budget' : Nat} (hle : budget ≤ budget') (hr : s.reduce budget t = .ok r) :
    s.reduce budget' t = .ok r := by
  obtain ⟨us, h⟩ := reduce_eq_ok_iff.1 hr
  exact reduce_eq_ok_iff.2 ⟨us, h.mono hle⟩

/-- Only a budget that was spent has anything to do with the answer. -/
theorem runFrom_eq_of_le {β : Type} {budget' : Nat} (hle : budget ≤ budget')
    (hspent : ∀ us v u, ¬ s.SpendsBudget budget t us v u) (gather : β → Term → β) (taken : Nat)
    (acc : β) : s.runFrom gather budget' taken acc t = s.runFrom gather budget taken acc t := by
  rcases s.exists_end budget t with ⟨us, r, h⟩ | ⟨us, v, u, h⟩ | ⟨us, v, u, h⟩
  · rw [h.runFrom_eq, (h.mono hle).runFrom_eq]
  · rw [h.runFrom_eq, (h.mono hle).runFrom_eq]
  · exact absurd h (hspent us v u)

/-- With a smaller budget than a result needs, all of the budget is spent. -/
theorem reduce_eq_ok_or_spent (budget : Nat) {budget' : Nat} (hr : s.reduce budget' t = .ok r) :
    s.reduce budget t = .ok r ∨ s.reduce budget t = .error ⟨s, budget⟩ := by
  rcases Nat.le_total budget' budget with hle | hle
  · exact .inl (reduce_mono hle hr)
  · by_cases hspent : ∃ us v u, s.SpendsBudget budget t us v u
    · obtain ⟨us, v, u, h⟩ := hspent
      exact .inr (reduce_eq_error_iff.2 (.inr ⟨us, v, u, h, rfl⟩))
    · simp only [not_exists] at hspent
      rw [reduce, runFrom_eq_of_le hle hspent] at hr
      exact .inl hr

/-! ### Bounded reduction -/

/-- **Bounded reduction is exact.**  It gives the stopping form exactly if the steps come to it
within the budget and the limits, and the trace then holds the terms that repeated requests give up
to there.  Otherwise both are given up with the number of the first step outside the limits, or with
the whole budget if that many steps have stayed inside and one more is left to do.  The count of
steps is never above the budget.  A larger budget changes nothing unless all of the budget has been
counted, and a result is its own result under any budget. -/
theorem bounded_exact (s : Strategy) (budget : Nat) (t : Term) :
    (∀ r, s.reduce budget t = .ok r ↔ ∃ us, s.Finishes budget t us r) ∧
      (∀ us, s.trace budget t = .ok us ↔ ∃ r, s.Finishes budget t us r) ∧
      (∀ us r, s.Finishes budget t us r →
        ∀ k, s.steps (us.length + k) t = us.map some ++ List.replicate k none) ∧
      (∀ e, s.reduce budget t = .error e ↔
        (∃ us v u, s.LeavesLimits budget t us v u ∧ e = ⟨s, us.length + 1⟩) ∨
          ∃ us v u, s.SpendsBudget budget t us v u ∧ e = ⟨s, budget⟩) ∧
      (∀ e, s.trace budget t = .error e ↔ s.reduce budget t = .error e) ∧
      (∀ e, s.reduce budget t = .error e → e.steps ≤ budget) ∧
      ((∀ e, s.reduce budget t = .error e → e.steps < budget) →
        ∀ budget', budget ≤ budget' →
          s.reduce budget' t = s.reduce budget t ∧ s.trace budget' t = s.trace budget t) ∧
      ∀ r, s.reduce budget t = .ok r →
        ∀ budget', s.reduce budget' r = .ok r ∧ s.trace budget' r = .ok [] := by
  refine ⟨fun r => reduce_eq_ok_iff, fun us => trace_eq_ok_iff, ?_,
    fun e => reduce_eq_error_iff, fun e => trace_eq_error_iff, ?_, ?_, ?_⟩
  · intro us r h k
    rw [h.run.steps_eq, steps_eq_replicate h.stops]
  · intro e he
    rcases reduce_eq_error_iff.1 he with ⟨us, v, u, h, rfl⟩ | ⟨us, v, u, -, rfl⟩
    · exact h.length_lt
    · exact Nat.le_refl budget
  · intro hcount budget' hle
    have hspent : ∀ us v u, ¬ s.SpendsBudget budget t us v u := by
      intro us v u h
      have he := reduce_eq_error_iff.2 (.inr ⟨us, v, u, h, rfl⟩)
      exact absurd (hcount _ he) (Nat.lt_irrefl budget)
    rw [reduce, reduce, trace, trace, runFrom_eq_of_le hle hspent, runFrom_eq_of_le hle hspent]
    exact ⟨rfl, rfl⟩
  · intro r hr budget'
    obtain ⟨us, h⟩ := reduce_eq_ok_iff.1 hr
    have hself : s.Finishes budget' r [] r := ⟨.nil r, h.stops, Nat.zero_le budget', by simp⟩
    exact ⟨reduce_eq_ok_iff.2 ⟨[], hself⟩, trace_eq_ok_iff.2 ⟨r, hself⟩⟩

/-- Two steps lead to the stopping form, and a budget of one is spent before.  A numeral that is
too deep is not reduced any further, whatever budget is left. -/
theorem bounded_exact_ends :
    let s := normalOrder true
    let i := abs "z" (var "z")
    let t := app (app i i) (var "y")
    let deep := Church.numeral 998
    s.Finishes 2 t [app i (var "y"), var "y"] (var "y") ∧
      s.reduce 2 t = .ok (var "y") ∧ s.trace 2 t = .ok [app i (var "y"), var "y"] ∧
      (∀ budget, s.reduce budget (var "y") = .ok (var "y")) ∧
      s.SpendsBudget 1 t [app i (var "y")] (app i (var "y")) (var "y") ∧
      s.reduce 1 t = .error ⟨s, 1⟩ ∧ s.trace 1 t = .error ⟨s, 1⟩ ∧
      s.LeavesLimits 2 (app i deep) [] (app i deep) deep ∧
      ∀ budget, 2 ≤ budget → s.reduce budget (app i deep) = .error ⟨s, 1⟩ := by
  intro s i t deep
  have hi : ∀ a, s.step (app i a) = some a := fun a => by
    simp [s, i, step, outermostStep, contract, substitute_var]
  have ht : s.step t = some (app i (var "y")) := by decide +kernel
  have hfinishes : s.Finishes 2 t [app i (var "y"), var "y"] (var "y") :=
    ⟨.cons ht (.cons (hi _) (.nil _)), rfl, by decide, by decide +kernel⟩
  have hspends : s.SpendsBudget 1 t [app i (var "y")] (app i (var "y")) (var "y") :=
    ⟨.cons ht (.nil _), hi _, rfl, by decide +kernel⟩
  have hleaves : s.LeavesLimits 2 (app i deep) [] (app i deep) deep :=
    ⟨.nil _, hi _, by decide, by simp, by decide +kernel⟩
  obtain ⟨hok, htrace, -, -, -, -, -, hagain⟩ := bounded_exact s 2 t
  obtain ⟨-, -, -, herror, htraceError, -⟩ := bounded_exact s 1 t
  obtain ⟨-, -, -, hlimit, -, -, hlarger, -⟩ := bounded_exact s 2 (app i deep)
  have hreduce := (hok _).2 ⟨_, hfinishes⟩
  have hspent := (herror _).2 (.inr ⟨_, _, _, hspends, rfl⟩)
  have hgivenUp : s.reduce 2 (app i deep) = .error ⟨s, 1⟩ :=
    (hlimit _).2 (.inl ⟨_, _, _, hleaves, rfl⟩)
  refine ⟨hfinishes, hreduce, (htrace _).2 ⟨_, hfinishes⟩, fun budget => (hagain _ hreduce budget).1,
    hspends, hspent, (htraceError _).2 hspent, hleaves, ?_⟩
  intro budget hbudget
  have hcount : ∀ e, s.reduce 2 (app i deep) = .error e → e.steps < 2 := by
    intro e he
    rw [hgivenUp] at he
    obtain rfl := Except.error.inj he
    exact Nat.lt_succ_self 1
  rw [(hlarger hcount budget hbudget).1, hgivenUp]

end Strategy

end NamedLambda
