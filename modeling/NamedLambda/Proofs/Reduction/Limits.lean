/-
NamedLambda/Proofs/Reduction/Limits.lean

The limits of reduction are limits on the size and on the depth of a term.

A term is checked by a walk that keeps the terms to be visited on a list.  The list is a stack, but
nothing depends on that: `Walk.Step` takes any pending term and puts the parts of it anywhere.  The
invariant compares what is pending with what the limits still allow (`Walk.Within`).  A visit counts
one node, of which the pending terms have one less then, and the paths through the node are those
through its parts, one level deeper.  So a visit changes nothing in the comparison, and the walk is
broken off only where it has turned out badly (`Walk.Step.within_iff`).  Every walk comes to an end,
for a step leaves less to do (`Walk.Step.remaining_lt`), and all walks end with the same answer.

Size and depth do not see the names of variables, so neither do the limits.

Main result: `withinLimits_exact`.
-/
import Mathlib.Algebra.GroupWithZero.Nat
import Mathlib.Logic.Relation
import NamedLambda.Proofs.Term.Denotation
import NamedLambda.Reduction.Bounded

namespace NamedLambda

/-! ### Size and depth without names -/

namespace Nameless

/-- The number of nodes. -/
def size : Nameless → Nat
  | bound _ => 1
  | free _ => 1
  | abs b => b.size + 1
  | app f a => f.size + a.size + 1

/-- The number of nodes on the longest path from the root to a leaf. -/
def depth : Nameless → Nat
  | bound _ => 1
  | free _ => 1
  | abs b => b.depth + 1
  | app f a => max f.depth a.depth + 1

end Nameless

namespace Term

theorem size_denote (t : Term) {ρ : Valuation} (hρ : ρ.Atomic) : (t.denote ρ).size = t.size := by
  induction t generalizing ρ with
  | var x => exact hρ.apply_eq (fun _ => rfl) (fun _ => rfl) x
  | abs x b ih => simp [denote, size, Nameless.size, ih (hρ.bind x)]
  | app f a ihf iha => simp [denote, size, Nameless.size, ihf hρ, iha hρ]

theorem depth_denote (t : Term) {ρ : Valuation} (hρ : ρ.Atomic) :
    (t.denote ρ).depth = t.depth := by
  induction t generalizing ρ with
  | var x => exact hρ.apply_eq (fun _ => rfl) (fun _ => rfl) x
  | abs x b ih => simp [denote, depth, Nameless.depth, ih (hρ.bind x)]
  | app f a ihf iha => simp [denote, depth, Nameless.depth, ihf hρ, iha hρ]

theorem size_nameless (t : Term) : t.nameless.size = t.size := by
  rw [nameless_eq_denote, size_denote t Valuation.atomic_free]

theorem depth_nameless (t : Term) : t.nameless.depth = t.depth := by
  rw [nameless_eq_denote, depth_denote t Valuation.atomic_free]

/-! ### The parts of a node -/

theorem one_le_size (t : Term) : 1 ≤ t.size := by
  cases t <;> simp [size]

theorem one_le_depth (t : Term) : 1 ≤ t.depth := by
  cases t <;> simp [depth]

/-- The terms right below the root. -/
def parts : Term → List Term
  | var _ => []
  | abs _ b => [b]
  | app f a => [a, f]

theorem size_eq_parts (t : Term) : t.size = (t.parts.map size).sum + 1 := by
  cases t with
  | var x => rfl
  | abs x b => simp [parts, size]
  | app f a => simp [parts, size, Nat.add_comm]

/-- No path from a root at depth `d` goes deeper than `m` exactly if the root does not, and no path
from the roots of the parts does. -/
theorem depth_add_le_iff_parts {t : Term} {d m : Nat} :
    t.depth + d ≤ m + 1 ↔ d ≤ m ∧ ∀ u ∈ t.parts, u.depth + (d + 1) ≤ m + 1 := by
  cases t with
  | var x =>
      simp only [parts, depth, List.not_mem_nil, false_implies, implies_true, and_true]
      omega
  | abs x b =>
      have hb := one_le_depth b
      simp only [parts, depth, List.forall_mem_singleton]
      omega
  | app f a =>
      have ha := one_le_depth a
      simp only [parts, depth, List.forall_mem_cons, List.not_mem_nil, false_implies, implies_true,
        and_true]
      omega

/-- The parts of a node whose root lies at depth `d`, each with the depth of its root. -/
def placedParts (t : Term) (d : Nat) : List (Term × Nat) :=
  t.parts.map fun u => (u, d + 1)

/-! ### The walk -/

/-- A walk through a term that is checked against the limits. -/
inductive Walk where
  /-- So many nodes have been visited.  The pending terms, each with the depth of its root, have
  not. -/
  | visiting (count : Nat) (pending : List (Term × Nat))
  /-- The walk has come to an end. -/
  | answered (within : Bool)

namespace Walk

/-- The walk that begins at the root. -/
def start (t : Term) : Walk :=
  visiting 0 [(t, 1)]

/-- A step of a walk: any pending term is taken, and its root is counted.  Either the walk is broken
off there, or the parts of the term become pending, in any order with the others.  A walk with
nothing pending has found nothing wrong. -/
inductive Step : Walk → Walk → Prop
  | visit {count d : Nat} {t : Term} {pending rest pending' : List (Term × Nat)} :
      pending.Perm ((t, d) :: rest) → d ≤ maxDepth → count + 1 ≤ maxSize →
        pending'.Perm (t.placedParts d ++ rest) →
          Step (visiting count pending) (visiting (count + 1) pending')
  | refuse {count d : Nat} {t : Term} {pending rest : List (Term × Nat)} :
      pending.Perm ((t, d) :: rest) → maxDepth < d ∨ maxSize < count + 1 →
        Step (visiting count pending) (answered false)
  | accept (count : Nat) : Step (visiting count []) (answered true)

/-- The number of nodes of the pending terms. -/
def pendingSize (pending : List (Term × Nat)) : Nat :=
  (pending.map fun p => p.1.size).sum

/-- There is nothing left to be refused: the pending nodes are no more than may still be visited,
and no path of a pending term goes too deep. -/
def Within : Walk → Prop
  | visiting count pending =>
      pendingSize pending ≤ maxSize - count ∧ ∀ p ∈ pending, p.1.depth + p.2 ≤ maxDepth + 1
  | answered within => within = true

theorem pendingSize_perm {pending pending' : List (Term × Nat)} (h : pending.Perm pending') :
    pendingSize pending = pendingSize pending' :=
  (h.map _).sum_nat

theorem pendingSize_cons (t : Term) (d : Nat) (rest : List (Term × Nat)) :
    pendingSize ((t, d) :: rest) = t.size + pendingSize rest := by
  rw [pendingSize, List.map_cons, List.sum_cons, pendingSize]

/-- Visiting the root of a pending term leaves one node less pending. -/
theorem pendingSize_cons_eq_parts (t : Term) (d : Nat) (rest : List (Term × Nat)) :
    pendingSize ((t, d) :: rest) = pendingSize (t.placedParts d ++ rest) + 1 := by
  have hparts : (t.placedParts d).map (fun p => p.1.size) = t.parts.map size := by
    rw [placedParts, List.map_map]
    rfl
  rw [pendingSize_cons, size_eq_parts, pendingSize, pendingSize, List.map_append, List.sum_append,
    hparts, Nat.add_right_comm]

/-- **A step keeps the answer.** -/
theorem Step.within_iff {w w' : Walk} (h : w.Step w') : w.Within ↔ w'.Within := by
  cases h with
  | @visit count d t pending rest pending' hp hd hcount hp' =>
      have hsize : pendingSize pending = pendingSize pending' + 1 := by
        rw [pendingSize_perm hp, pendingSize_perm hp', pendingSize_cons_eq_parts]
      have hdepth : (∀ p ∈ pending, p.1.depth + p.2 ≤ maxDepth + 1) ↔
          ∀ p ∈ pending', p.1.depth + p.2 ≤ maxDepth + 1 := by
        simp only [hp.mem_iff, hp'.mem_iff, List.forall_mem_cons, List.forall_mem_append]
        rw [depth_add_le_iff_parts, and_iff_right hd, placedParts, List.forall_mem_map]
      rw [Within, Within, hsize, hdepth]
      refine and_congr_left' ?_
      omega
  | @refuse count d t pending rest hp hover =>
      have hsize := t.one_le_size
      have hdepth := t.one_le_depth
      refine iff_of_false ?_ Bool.false_ne_true
      rintro ⟨hfits, hdeep⟩
      rw [pendingSize_perm hp, pendingSize_cons] at hfits
      have ht : t.depth + d ≤ maxDepth + 1 := hdeep (t, d) (hp.mem_iff.2 List.mem_cons_self)
      omega
  | accept count => exact iff_of_true ⟨Nat.zero_le _, by simp⟩ rfl

/-- What a whole walk answers was settled where it began. -/
theorem within_iff_of_reaches {w w' : Walk} (h : Relation.ReflTransGen Step w w') :
    w.Within ↔ w'.Within := by
  induction h with
  | refl => exact Iff.rfl
  | tail _ hstep ih => exact ih.trans hstep.within_iff

theorem within_start_iff {t : Term} :
    (start t).Within ↔ t.depth ≤ maxDepth ∧ t.size ≤ maxSize := by
  rw [start, Within, pendingSize_cons, List.forall_mem_singleton, Nat.add_le_add_iff_right,
    Nat.sub_zero]
  exact and_comm

/-! ### The end of a walk -/

/-- A bound on the number of steps that a walk can still make. -/
def remaining : Walk → Nat
  | visiting _ pending => pendingSize pending + 1
  | answered _ => 0

theorem Step.remaining_lt {w w' : Walk} (h : w.Step w') : w'.remaining < w.remaining := by
  cases h with
  | @visit count d t pending rest pending' hp hd hcount hp' =>
      rw [remaining, remaining, pendingSize_perm hp, pendingSize_perm hp',
        pendingSize_cons_eq_parts]
      exact Nat.lt_succ_self _
  | refuse _ _ => exact Nat.succ_pos _
  | accept count => exact Nat.succ_pos _

/-- There is no endless walk. -/
theorem wellFounded_step : WellFounded fun w' w : Walk => w.Step w' := by
  have hsub : Subrelation (fun w' w : Walk => w.Step w') (InvImage (· < ·) remaining) :=
    fun h => h.remaining_lt
  exact hsub.wf (InvImage.wf _ Nat.lt_wfRel.wf)

/-- A walk that has not come to an end can go on. -/
theorem exists_step_visiting (count : Nat) (pending : List (Term × Nat)) :
    ∃ w, Step (visiting count pending) w := by
  rcases pending with - | ⟨⟨t, d⟩, rest⟩
  · exact ⟨_, .accept count⟩
  · by_cases hover : maxDepth < d ∨ maxSize < count + 1
    · exact ⟨_, .refuse (.refl _) hover⟩
    · rw [not_or, Nat.not_lt, Nat.not_lt] at hover
      exact ⟨_, .visit (.refl _) hover.1 hover.2 (.refl _)⟩

/-- The visit of pending terms in the order of a stack is a walk. -/
theorem reaches_visitWithin {count room : Nat} (h : count + room = maxSize)
    (pending : List (Term × Nat)) :
    Relation.ReflTransGen Step (visiting count pending)
      (answered (visitWithin room pending)) := by
  fun_induction visitWithin room pending generalizing count with
  | case1 room => exact .single (.accept count)
  | case2 p pending => exact .single (.refuse (.refl _) (Or.inr (by omega)))
  | case3 room d pending hd x ih =>
      exact .head (.visit (.refl _) hd (by omega) (.refl _)) (ih (by omega))
  | case4 room d pending hd x b ih =>
      exact .head (.visit (.refl _) hd (by omega) (.refl _)) (ih (by omega))
  | case5 room d pending hd f a ih =>
      exact .head (.visit (.refl _) hd (by omega) (.refl _)) (ih (by omega))
  | case6 room t d pending hd =>
      exact .single (.refuse (.refl _) (Or.inl (Nat.lt_of_not_le hd)))

end Walk

/-! ### The limits -/

theorem reaches_withinLimits (t : Term) :
    Relation.ReflTransGen Walk.Step (.start t) (.answered t.withinLimits) :=
  Walk.reaches_visitWithin (Nat.zero_add maxSize) [(t, 1)]

theorem withinLimits_iff {t : Term} :
    t.withinLimits = true ↔ t.depth ≤ maxDepth ∧ t.size ≤ maxSize :=
  (Walk.within_iff_of_reaches t.reaches_withinLimits).symm.trans Walk.within_start_iff

/-- Whether a term is within the limits depends on its nameless form only. -/
theorem withinLimits_congr {t u : Term} (h : t.nameless = u.nameless) :
    t.withinLimits = u.withinLimits := by
  have hsize : t.size = u.size := by rw [← size_nameless, h, size_nameless]
  have hdepth : t.depth = u.depth := by rw [← depth_nameless, h, depth_nameless]
  rw [Bool.eq_iff_iff, withinLimits_iff, withinLimits_iff, hsize, hdepth]

/-- **The check of the limits is exact.**  A term is within the limits if and only if no path of it
is longer than the greatest depth and it has no more nodes than the greatest size.  There is no
endless walk, the check is one of the walks through the term, and a walk that cannot go on has this
same answer, in whatever order it has taken the pending terms and wherever it was broken off. -/
theorem withinLimits_exact (t : Term) :
    (t.withinLimits = true ↔ t.depth ≤ maxDepth ∧ t.size ≤ maxSize) ∧
      (WellFounded fun w' w : Walk => w.Step w') ∧
      Relation.ReflTransGen Walk.Step (.start t) (.answered t.withinLimits) ∧
      ∀ w, Relation.ReflTransGen Walk.Step (.start t) w →
        ((¬ ∃ w', w.Step w') ↔ w = .answered t.withinLimits) := by
  refine ⟨withinLimits_iff, Walk.wellFounded_step, t.reaches_withinLimits, ?_⟩
  intro w hw
  cases w with
  | visiting count pending =>
      refine iff_of_false (not_not_intro (Walk.exists_step_visiting count pending)) ?_
      rintro ⟨⟩
  | answered within =>
      have hwithin : within = true ↔ t.withinLimits = true :=
        (Walk.within_iff_of_reaches hw).symm.trans
          (Walk.within_iff_of_reaches t.reaches_withinLimits)
      refine iff_of_true ?_ (congrArg Walk.answered (Bool.eq_iff_iff.2 hwithin))
      rintro ⟨w', ⟨⟩⟩

/-- A walk that goes into the operator before the argument, against the order of the stack, is not
at its end before it has the same answer. -/
theorem withinLimits_exact_operator_first :
    let t := app (abs "x" (var "x")) (var "y")
    let w := Walk.visiting 2 [(var "y", 2), (var "x", 3)]
    Relation.ReflTransGen Walk.Step (.start t) w ∧ (∃ w', w.Step w') ∧
      Relation.ReflTransGen Walk.Step w (.answered t.withinLimits) ∧ t.withinLimits = true := by
  intro t w
  have hroot : (Walk.start t).Step (.visiting 1 [(abs "x" (var "x"), 2), (var "y", 2)]) :=
    .visit (.refl _) (by decide) (by decide) (.swap ..)
  have hoperator : Walk.Step (.visiting 1 [(abs "x" (var "x"), 2), (var "y", 2)]) w :=
    .visit (.refl _) (by decide) (by decide) (.swap ..)
  have hw : Relation.ReflTransGen Walk.Step (.start t) w := .tail (.single hroot) hoperator
  obtain ⟨hlimits, -, -, hend⟩ := withinLimits_exact t
  have hwithin : t.withinLimits = true := hlimits.2 (by decide)
  have hnext : ∃ w', w.Step w' := by
    by_contra hstuck
    have hw' : w = .answered t.withinLimits := (hend w hw).1 hstuck
    exact Walk.noConfusion hw'
  have hvar : Walk.Step w (.visiting 3 [(var "x", 3)]) :=
    .visit (.refl _) (by decide) (by decide) (.refl _)
  have hbody : Walk.Step (.visiting 3 [(var "x", 3)]) (.visiting 4 []) :=
    .visit (.refl _) (by decide) (by decide) (.refl _)
  refine ⟨hw, hnext, ?_, hwithin⟩
  rw [hwithin]
  exact .head hvar (.head hbody (.single (.accept 4)))

end Term

end NamedLambda
