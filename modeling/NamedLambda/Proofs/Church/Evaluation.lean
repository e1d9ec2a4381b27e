/-
NamedLambda/Proofs/Church/Evaluation.lean

Evaluation in an encoding: the normal form of a term, decoded.

A number and a truth value are found in the same way, so the facts are stated once for an arbitrary
encoding (`Encoding.evaluate`).  Evaluation rests on three things.  Reduction under a budget ends in
a normal form or is given up.  A term has one normal form, up to bound names.  The decoder does not
look at those.  So a term that reduces to the term of a value evaluates to that value or not at all
(`evaluate_of_reducesAlpha`), and normal order leads there (`exists_run_of_reducesAlpha`).
-/
import NamedLambda.Church.Evaluation
import NamedLambda.Proofs.Church.Encoding
import NamedLambda.Proofs.Reduction.Agreement
import NamedLambda.Proofs.Reduction.Outermost

namespace NamedLambda

namespace Church

open Term Strategy

namespace Encoding

variable {α : Type} (E : Encoding α)

/-! ### Reading a normal form -/

/-- The value of which a normal form is the term. -/
def read (u : Term) : Except EvaluationError α :=
  match E.decode u with
  | some a => .ok a
  | none => .error (.shape E.kind)

theorem read_eq_ok_iff {u : Term} {a : α} : E.read u = .ok a ↔ u.alphaEq (E.encode a) := by
  rw [← E.decode_eq_some_iff, read]
  rcases E.decode u with - | b <;> simp

theorem read_eq_shape_iff {u : Term} {k : Kind} :
    E.read u = .error (.shape k) ↔ k = E.kind ∧ ∀ a, ¬ u.alphaEq (E.encode a) := by
  simp only [← E.decode_eq_some_iff, read]
  rcases E.decode u with - | b <;> simp [eq_comm]

theorem read_congr {t u : Term} (h : t.alphaEq u) : E.read t = E.read u := by
  rw [read, read, E.decode_congr h]

/-! ### Evaluation -/

/-- The value of a term: its normal form, read. -/
def evaluate (budget : Nat) (t : Term) : Except EvaluationError α :=
  match t.normalForm budget with
  | .error e => .error (.divergence e)
  | .ok u => E.read u

/-- Evaluation reads a normal form of the term, or else reduction was given up. -/
theorem evaluate_eq_read_or_divergence (budget : Nat) (t : Term) :
    (∃ r, t.normalForm budget = .ok r ∧ r.IsNormalFormOf t ∧
        E.evaluate budget t = E.read r) ∨
      ∃ e, E.evaluate budget t = .error (.divergence e) := by
  rw [evaluate]
  rcases h : t.normalForm budget with e | r
  · exact Or.inr ⟨e, rfl⟩
  · exact Or.inl ⟨r, rfl, isNormalFormOf_of_reduce rfl h, rfl⟩

/-! ### Terms that reduce to the term of a value -/

variable {t : Term} {a : α}

/-- A term that reduces to the term of a value evaluates to nothing but that value. -/
theorem evaluate_of_reducesAlpha (h : t.ReducesAlpha (E.encode a)) (budget : Nat) :
    E.evaluate budget t = .ok a ∨ ∃ e, E.evaluate budget t = .error (.divergence e) := by
  rcases E.evaluate_eq_read_or_divergence budget t with ⟨r, -, hr, heval⟩ | hdiv
  · have ha : (E.encode a).IsNormalFormOf t := ⟨E.normal_encode a, h⟩
    rw [heval, E.read_eq_ok_iff]
    exact Or.inl (hr.unique ha)
  · exact Or.inr hdiv

/-- Where normal order leads to the term of a value, its run decides which budgets suffice for the
evaluation. -/
theorem evaluate_eq_ok_iff_of_run {us : List Term} {r : Term}
    (hrun : (normalOrder true).Run t us r) (hr : (normalOrder true).step r = none)
    (hra : r.alphaEq (E.encode a)) (budget : Nat) :
    E.evaluate budget t = .ok a ↔ us.length ≤ budget ∧ ∀ u ∈ us, u.withinLimits := by
  rw [← hrun.reduce_eq_iff hr budget]
  constructor
  · intro heval
    rcases E.evaluate_eq_read_or_divergence budget t with ⟨r', hr', -, -⟩ | ⟨e, he⟩
    · -- Reduction has ended well, and there is only one run for it to follow.
      obtain ⟨us', hrun', hstop', -, -⟩ := reduce_eq_ok_iff.1 hr'
      obtain ⟨-, rfl⟩ := hrun.unique hr hrun' hstop'
      exact hr'
    · rw [heval] at he
      cases he
  · intro hreduce
    have hread : E.evaluate budget t = E.read r := by
      rw [evaluate, normalForm, hreduce]
    rw [hread, E.read_eq_ok_iff]
    exact hra

/-- Normal order leads from such a term to the term of the value. -/
theorem exists_run_of_reducesAlpha (h : t.ReducesAlpha (E.encode a)) :
    ∃ us r, (normalOrder true).Run t us r ∧ (normalOrder true).step r = none ∧
      r.alphaEq (E.encode a) ∧
      ∀ budget, E.evaluate budget t = .ok a ↔
        us.length ≤ budget ∧ ∀ u ∈ us, u.withinLimits := by
  obtain ⟨us, r, hrun, hr, hra⟩ := exists_run_of_normal (E.normal_encode a) h
  exact ⟨us, r, hrun, hr, hra, E.evaluate_eq_ok_iff_of_run hrun hr hra⟩

end Encoding

/-! ### Numbers and truth values -/

theorem toNumber_eq_evaluate (budget : Nat) (t : Term) :
    t.toNumber budget = numbers.evaluate budget t := by
  rw [Term.toNumber, Encoding.evaluate]
  rcases t.normalForm budget with e | u
  · rfl
  · show _ = numbers.read u
    rw [Encoding.read]
    rcases h : decodeNumeral u with - | n <;> simp [numbers, h]

theorem toBool_eq_evaluate (budget : Nat) (t : Term) :
    t.toBool budget = truths.evaluate budget t := by
  rw [Term.toBool, Encoding.evaluate]
  rcases t.normalForm budget with e | u
  · rfl
  · show _ = truths.read u
    rw [Encoding.read]
    rcases h : decodeBoolean u with - | p <;> simp [truths, h]

end Church

end NamedLambda
