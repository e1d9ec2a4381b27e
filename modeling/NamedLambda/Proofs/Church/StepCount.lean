/-
NamedLambda/Proofs/Church/StepCount.lean

How many steps normal order takes for one operation on numerals.

The binders of the combinators and of the numerals have names in common, and still no binder is
renamed on the way: numerals are closed, and what a numeral is applied to has no free variable that
is named like its inner parameter.  So the steps can be followed with their names, and they end in
the numeral of the result as it is written.

Two steps apply a numeral to the variable `f` and the result to anything (`run_applied`).
Addition does this once for each operand.  Multiplication does it once for each copy of the second
operand, each time under the applications of `f` that the copies before have left
(`exists_run_iterate`).  The steps in between put the operands into the combinator.

The terms on the way of an addition are known, so it is known as well for which numbers all of them
are within the limits (`withinLimits_additionTerms_iff`).

Main result: `normalOrder_counts_steps`.
-/
import NamedLambda.Proofs.Church.Evaluation
import NamedLambda.Proofs.Reduction.Limits
import NamedLambda.Proofs.Term.FreeVariables

namespace NamedLambda

namespace Church

open Term Strategy

/-! ### Iteration of named terms -/

theorem iterate_iterate (f x : Term) (m n : Nat) :
    iterate f (iterate f x n) m = iterate f x (m + n) := by
  induction m with
  | zero => rw [Nat.zero_add, iterate]
  | succ m ih => rw [Nat.succ_add, iterate, iterate, ih]

theorem substitute_iterate (f x : Term) (n : Nat) (y : Name) (r : Term) :
    (iterate f x n).substitute y r = iterate (f.substitute y r) (x.substitute y r) n := by
  induction n with
  | zero => rfl
  | succ n ih => rw [iterate, substitute_app, ih, iterate]

theorem occursFree_of_iterate {f x : Term} {n : Nat} {y : Name}
    (h : (iterate f x n).occursFree y) : f.occursFree y ∨ x.occursFree y := by
  induction n with
  | zero => exact Or.inr h
  | succ n ih =>
      rw [iterate, occursFree, Bool.or_eq_true] at h
      exact h.elim Or.inl ih

theorem size_iterate_var (f : Name) (x : Term) (n : Nat) :
    (iterate (var f) x n).size = 2 * n + x.size := by
  induction n with
  | zero => rw [iterate, Nat.mul_zero, Nat.zero_add]
  | succ n ih =>
      rw [iterate, size, size, ih]
      omega

theorem depth_iterate_var (f : Name) (x : Term) (n : Nat) :
    (iterate (var f) x n).depth = n + x.depth := by
  induction n with
  | zero => rw [iterate, Nat.zero_add]
  | succ n ih =>
      have hx := one_le_depth x
      rw [iterate, depth, depth, ih]
      omega

/-! ### Numerals -/

/-- A body under the two parameters of a numeral. -/
def underParameters (b : Term) : Term :=
  abs "f" (abs "x" b)

/-- The body of the numeral of `n`. -/
def numeralBody (n : Nat) : Term :=
  iterate (var "f") (var "x") n

/-- The numeral of `n` applied to the variable `f` and to `a`. -/
def applied (n : Nat) (a : Term) : Term :=
  app (app (numeral n) (var "f")) a

@[simp] theorem occursFree_numeral (n : Nat) (y : Name) : (numeral n).occursFree y = false := by
  rw [Bool.eq_false_iff]
  intro h
  rw [numeral, occursFree_abs, occursFree_abs] at h
  obtain ⟨hf, hx, hbody⟩ := h
  rcases occursFree_of_iterate hbody with h | h
  · exact hf (occursFree_var.1 h)
  · exact hx (occursFree_var.1 h)

@[simp] theorem substitute_numeral (n : Nat) (y : Name) (r : Term) :
    (numeral n).substitute y r = numeral n :=
  substitute_of_not_occursFree (by simp) r

@[simp] theorem size_numeral (n : Nat) : (numeral n).size = 2 * n + 3 := by
  rw [numeral, size, size, size_iterate_var, size]

@[simp] theorem depth_numeral (n : Nat) : (numeral n).depth = n + 3 := by
  rw [numeral, depth, depth, depth_iterate_var, depth]

/-- A numeral takes its first argument, whose free variables are not named like its inner
parameter. -/
theorem contract_numeral_app (n : Nat) {g : Term} (hg : ¬ g.occursFree "x") :
    (app (numeral n) g).contract = some (abs "x" (iterate g (var "x") n)) := by
  have hbody : (iterate (var "f") (var "x") n).substitute "f" g = iterate g (var "x") n := by
    rw [substitute_iterate, substitute_var, substitute_var, if_pos rfl, if_neg (by decide)]
  have hkept : ¬ (g.occursFree "x" && (iterate (var "f") (var "x") n).occursFree "f") = true := by
    simp [hg]
  show some ((abs "x" (iterate (var "f") (var "x") n)).substitute "f" g) = _
  rw [substitute_abs, if_neg (by decide), if_neg hkept, hbody]

/-- An iteration takes its second argument. -/
theorem contract_iteration_app (n : Nat) {g : Term} (hg : ¬ g.occursFree "x") (a : Term) :
    (app (abs "x" (iterate g (var "x") n)) a).contract = some (iterate g a n) := by
  show some ((iterate g (var "x") n).substitute "x" a) = _
  rw [substitute_iterate, substitute_of_not_occursFree hg, substitute_var, if_pos rfl]

/-! ### Steps in a body -/

theorem step_underParameters {b b' : Term} (h : (normalOrder true).step b = some b') :
    (normalOrder true).step (underParameters b) = some (underParameters b') :=
  outermostStep_abs (outermostStep_abs h "x") "f"

theorem step_app_var (x : Name) {a a' : Term} (h : (normalOrder true).step a = some a') :
    (normalOrder true).step (app (var x) a) = some (app (var x) a') := by
  have hx : (var x).outermostStep true true = none := rfl
  exact outermostStep_app_right rfl hx h

theorem step_iterate_var (x : Name) (n : Nat) {a a' : Term}
    (h : (normalOrder true).step a = some a') :
    (normalOrder true).step (iterate (var x) a n) = some (iterate (var x) a' n) := by
  induction n with
  | zero => exact h
  | succ n ih => exact step_app_var x ih

/-- A numeral is applied in two steps. -/
theorem run_applied (n : Nat) (a : Term) :
    (normalOrder true).Run (applied n a)
      [app (abs "x" (numeralBody n)) a, iterate (var "f") a n] (iterate (var "f") a n) := by
  have hf : ¬ (var "f").occursFree "x" := by decide
  have hfirst : (normalOrder true).step (applied n a) = some (app (abs "x" (numeralBody n)) a) :=
    outermostStep_app_left rfl (outermostStep_of_contract (contract_numeral_app n hf) true true) a
  have hsecond : (normalOrder true).step (app (abs "x" (numeralBody n)) a) =
      some (iterate (var "f") a n) :=
    outermostStep_of_contract (contract_iteration_app n hf a) true true
  exact .cons hfirst (.cons hsecond (.nil _))

/-- Iterations of an iteration are done one after the other, from the outside. -/
theorem exists_run_iterate (m n : Nat) :
    ∃ us, us.length = 2 * m ∧
      (normalOrder true).Run (iterate (app (numeral n) (var "f")) (var "x") m) us
        (numeralBody (m * n)) := by
  induction m with
  | zero =>
      rw [Nat.zero_mul]
      exact ⟨[], rfl, .nil _⟩
  | succ m ih =>
      obtain ⟨us, hlength, hrun⟩ := ih
      have houter := run_applied n (iterate (app (numeral n) (var "f")) (var "x") m)
      -- The rest is done where the outermost iteration has put it.
      have hinner := hrun.map fun _ _ => step_iterate_var "f" n
      have hbody : iterate (var "f") (numeralBody (m * n)) n = numeralBody ((m + 1) * n) := by
        rw [numeralBody, numeralBody, iterate_iterate, Nat.succ_mul, Nat.add_comm]
      rw [hbody] at hinner
      refine ⟨_, ?_, houter.append hinner⟩
      rw [List.length_append, List.length_map, hlength]
      exact Nat.add_comm 2 (2 * m)

/-! ### Successor -/

theorem step_numeral (n : Nat) : (normalOrder true).step (numeral n) = none :=
  step_eq_none_of_normal _ (numbers.normal_encode n)

theorem run_succ (n : Nat) :
    (normalOrder true).Run (Combinator.succ.unary (numeral n))
      [underParameters (app (var "f") (applied n (var "x"))),
        underParameters (app (var "f") (app (abs "x" (numeralBody n)) (var "x"))),
        numeral (n + 1)] (numeral (n + 1)) := by
  have hcontract : (Combinator.succ.unary (numeral n)).contract =
      some (underParameters (app (var "f") (applied n (var "x")))) := by
    simp [Combinator.unary, Combinator.term, contract, underParameters, applied, substitute_abs,
      substitute_app, substitute_var]
  have hbody := (run_applied n (var "x")).map fun _ _ h =>
    step_underParameters (step_app_var "f" h)
  exact .cons (outermostStep_of_contract hcontract true true) hbody

/-- The operands of a combinator are put in one after the other. -/
theorem run_binary (c : Combinator) {t u g v r : Term} {us : List Term}
    (ht : (app c.term t).contract = some g) (hu : (app g u).contract = some v)
    (h : (normalOrder true).Run v us r) :
    (normalOrder true).Run (c.binary t u) (app g u :: v :: us) r := by
  apply Run.cons
  · exact outermostStep_app_left rfl (outermostStep_of_contract ht true true) u
  apply Run.cons
  · exact outermostStep_of_contract hu true true
  exact h

/-! ### Addition -/

/-- The combinator of addition with its first operand put in. -/
def addTo (m : Nat) : Term :=
  abs "n" (underParameters
    (app (app (numeral m) (var "f")) (app (app (var "n") (var "f")) (var "x"))))

/-- The terms on the way from an addition to the numeral of the sum. -/
def additionTerms (m n : Nat) : List Term :=
  [app (addTo m) (numeral n),
    underParameters (applied m (applied n (var "x"))),
    underParameters (app (abs "x" (numeralBody m)) (applied n (var "x"))),
    underParameters (iterate (var "f") (applied n (var "x")) m),
    underParameters (iterate (var "f") (app (abs "x" (numeralBody n)) (var "x")) m),
    numeral (m + n)]

theorem run_add (m n : Nat) :
    (normalOrder true).Run (Combinator.add.binary (numeral m) (numeral n)) (additionTerms m n)
      (numeral (m + n)) := by
  have hm : (app Combinator.add.term (numeral m)).contract = some (addTo m) := by
    simp [Combinator.term, contract, addTo, underParameters, substitute_abs, substitute_app,
      substitute_var]
  have hn : (app (addTo m) (numeral n)).contract =
      some (underParameters (applied m (applied n (var "x")))) := by
    simp [contract, addTo, underParameters, applied, substitute_abs, substitute_app,
      substitute_var]
  have hfirst := (run_applied m (applied n (var "x"))).map fun _ _ => step_underParameters
  -- The second operand is applied under the applications of `f` that the first one has made.
  have hsecond := (run_applied n (var "x")).map fun _ _ h =>
    step_underParameters (step_iterate_var "f" m h)
  have hend : underParameters (iterate (var "f") (iterate (var "f") (var "x") n) m) =
      numeral (m + n) := congrArg underParameters (iterate_iterate _ _ m n)
  have hrun := run_binary .add hm hn (hfirst.append hsecond)
  simpa only [additionTerms, List.map_cons, List.map_nil, List.cons_append, List.nil_append, hend]
    using hrun

/-- The sums all of whose steps stay within the limits. -/
theorem withinLimits_additionTerms_iff (m n : Nat) :
    (∀ u ∈ additionTerms m n, u.withinLimits) ↔ m ≤ 991 ∧ n ≤ 992 ∧ m + n ≤ 993 := by
  simp only [additionTerms, addTo, underParameters, applied, numeralBody, List.forall_mem_cons,
    List.not_mem_nil, false_implies, implies_true, and_true, withinLimits_iff, size, depth,
    size_numeral, depth_numeral, size_iterate_var, depth_iterate_var, maxSize, maxDepth]
  omega

/-! ### Multiplication -/

/-- The combinator of multiplication with its first operand put in. -/
def mulBy (m : Nat) : Term :=
  abs "n" (abs "f" (app (numeral m) (app (var "n") (var "f"))))

theorem exists_run_mul (m n : Nat) :
    ∃ us, us.length = 3 + 2 * m ∧
      (normalOrder true).Run (Combinator.mul.binary (numeral m) (numeral n)) us
        (numeral (m * n)) := by
  have hm : (app Combinator.mul.term (numeral m)).contract = some (mulBy m) := by
    simp [Combinator.term, contract, mulBy, substitute_abs, substitute_app, substitute_var]
  have hn : (app (mulBy m) (numeral n)).contract =
      some (abs "f" (app (numeral m) (app (numeral n) (var "f")))) := by
    simp [contract, mulBy, substitute_abs, substitute_app, substitute_var]
  have hfree : ¬ (app (numeral n) (var "f")).occursFree "x" := by
    simp [occursFree]
  have hiterate : (normalOrder true).step (abs "f" (app (numeral m) (app (numeral n) (var "f")))) =
      some (underParameters (iterate (app (numeral n) (var "f")) (var "x") m)) :=
    outermostStep_abs (outermostStep_of_contract (contract_numeral_app m hfree) true true) "f"
  obtain ⟨us, hlength, hrun⟩ := exists_run_iterate m n
  have hbody := hrun.map fun _ _ => step_underParameters
  refine ⟨_, ?_, run_binary .mul hm hn (.cons hiterate hbody)⟩
  rw [List.length_cons, List.length_cons, List.length_cons, List.length_map, hlength]
  exact Nat.add_comm (2 * m) 3

/-! ### The count -/

/-- **Normal order takes a known number of steps for an operation on numerals**, and ends in the
very numeral of the result: six steps for a sum, three and twice the first factor for a product, and
three for a successor.  Under the default budget and limits a sum is evaluated exactly if none of
the terms on the way is too deep, and none is if the sum is not above 990. -/
theorem normalOrder_counts_steps (m n : Nat) :
    (normalOrder true).EndsAfter 6 (Combinator.add.binary (numeral m) (numeral n))
        (numeral (m + n)) ∧
      (normalOrder true).EndsAfter (3 + 2 * m) (Combinator.mul.binary (numeral m) (numeral n))
        (numeral (m * n)) ∧
      (normalOrder true).EndsAfter 3 (Combinator.succ.unary (numeral n)) (numeral (n + 1)) ∧
      ((Combinator.add.binary (numeral m) (numeral n)).toNumber defaultBudget = .ok (m + n) ↔
        m ≤ 991 ∧ n ≤ 992 ∧ m + n ≤ 993) ∧
      (m + n ≤ 990 →
        (Combinator.add.binary (numeral m) (numeral n)).toNumber defaultBudget = .ok (m + n)) := by
  have hsum : (Combinator.add.binary (numeral m) (numeral n)).toNumber defaultBudget =
      .ok (m + n) ↔ m ≤ 991 ∧ n ≤ 992 ∧ m + n ≤ 993 := by
    have hself : (numeral (m + n)).alphaEq (numbers.encode (m + n)) := alphaEq_iff.2 rfl
    have hbudget : (additionTerms m n).length ≤ defaultBudget := by
      show 6 ≤ 10000
      omega
    rw [toNumber_eq_evaluate,
      numbers.evaluate_eq_ok_iff_of_run (run_add m n) (step_numeral _) hself,
      and_iff_right hbudget, withinLimits_additionTerms_iff]
  refine ⟨?_, ?_, ?_, hsum, ?_⟩
  · exact (run_add m n).endsAfter (step_numeral _) (List.cons_ne_nil _ _)
  · obtain ⟨us, hlength, hrun⟩ := exists_run_mul m n
    rw [← hlength]
    refine hrun.endsAfter (step_numeral _) (List.ne_nil_of_length_pos ?_)
    omega
  · exact (run_succ n).endsAfter (step_numeral _) (List.cons_ne_nil _ _)
  · intro hle
    rw [hsum]
    omega

/-- The bound is met with either operand zero. -/
theorem normalOrder_counts_steps_990 :
    (990 + 0 ≤ 990 ∧
      (Combinator.add.binary (numeral 990) (numeral 0)).toNumber defaultBudget = .ok 990) ∧
      0 + 990 ≤ 990 ∧
      (Combinator.add.binary (numeral 0) (numeral 990)).toNumber defaultBudget = .ok 990 := by
  obtain ⟨-, -, -, -, hleft⟩ := normalOrder_counts_steps 990 0
  obtain ⟨-, -, -, -, hright⟩ := normalOrder_counts_steps 0 990
  exact ⟨⟨by decide, hleft (by decide)⟩, by decide, hright (by decide)⟩

end Church

end NamedLambda
