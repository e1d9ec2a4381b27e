/-
NamedLambda/Proofs/Church/Consistency.lean

Decoding is consistent with conversion.

Evaluation ends in the normal form of a term or not at all, convertible terms have the same normal
form, and the decoder reads it up to bound names.  So convertible terms cannot be evaluated to
different values, nor one of them to a value while the other has the wrong shape, however different
the ways are on which they are reduced.  And a normal form of the wrong shape leaves no way to the
term of a value, not even with contractions undone.

Main result: `decoding_consistent`.
-/
import NamedLambda.Proofs.Church.Evaluation
import NamedLambda.Proofs.Reduction.Conversion

namespace NamedLambda

namespace Church

open Term

/-! ### Evaluation and conversion -/

namespace Encoding

variable {α : Type} (E : Encoding α) {t u : Term} {budget : Nat}

/-- Convertible terms evaluate to the same if they evaluate to something. -/
theorem evaluate_eq_of_convertible (h : t.Convertible u) {budget' : Nat}
    (ht : ∀ e, E.evaluate budget t ≠ .error (.divergence e))
    (hu : ∀ e, E.evaluate budget' u ≠ .error (.divergence e)) :
    E.evaluate budget t = E.evaluate budget' u := by
  rcases E.evaluate_eq_read_or_divergence budget t with ⟨r, -, hr, hreadt⟩ | ⟨e, he⟩
  · rcases E.evaluate_eq_read_or_divergence budget' u with ⟨s, -, hs, hreadu⟩ | ⟨e, he⟩
    · rw [hreadt, hreadu]
      exact E.read_congr ((hr.of_convertible h).unique hs)
    · exact absurd he (hu e)
  · exact absurd he (ht e)

/-- A term reduces to the term of the value that it evaluates to. -/
theorem exists_reduces_of_evaluate {a : α} (h : E.evaluate budget t = .ok a) :
    ∃ v, t.Reduces v ∧ v.alphaEq (E.encode a) := by
  rcases E.evaluate_eq_read_or_divergence budget t with ⟨r, hr, -, hread⟩ | ⟨e, he⟩
  · rw [hread] at h
    exact ⟨r, Strategy.reduces_of_reduce hr, E.read_eq_ok_iff.1 h⟩
  · rw [h] at he
    cases he

/-- A term whose normal form has the wrong shape is convertible to no term of a value. -/
theorem not_convertible_of_evaluate {k : Kind} (h : E.evaluate budget t = .error (.shape k))
    (a : α) : ¬ t.Convertible (E.encode a) := by
  intro hconv
  rcases E.evaluate_eq_read_or_divergence budget t with ⟨r, -, hr, hread⟩ | ⟨e, he⟩
  · rw [hread, E.read_eq_shape_iff] at h
    have ha : (E.encode a).IsNormalFormOf (E.encode a) := ⟨E.normal_encode a, .refl⟩
    exact h.2 a ((hr.of_convertible hconv).unique ha)
  · rw [h] at he
    cases he

end Encoding

/-! ### Numbers and truth values -/

/-- **Decoding is consistent with conversion.**  If two convertible terms are evaluated under any
budgets and neither reduction is given up, both give the same number or both have the wrong shape,
and likewise for truth values.  A term reduces to the numeral or the boolean of what it evaluates
to, up to bound names, and a term of the wrong shape is convertible to none. -/
theorem decoding_consistent {t u : Term} (h : t.Convertible u) (budget budget' : Nat) :
    ((∀ e, t.toNumber budget ≠ .error (.divergence e)) →
        (∀ e, u.toNumber budget' ≠ .error (.divergence e)) →
        t.toNumber budget = u.toNumber budget') ∧
      ((∀ e, t.toBool budget ≠ .error (.divergence e)) →
        (∀ e, u.toBool budget' ≠ .error (.divergence e)) →
        t.toBool budget = u.toBool budget') ∧
      (∀ n, t.toNumber budget = .ok n → ∃ v, t.Reduces v ∧ v.alphaEq (numeral n)) ∧
      (∀ p, t.toBool budget = .ok p → ∃ v, t.Reduces v ∧ v.alphaEq (boolean p)) ∧
      (∀ k, t.toNumber budget = .error (.shape k) → ∀ n, ¬ t.Convertible (numeral n)) ∧
      ∀ k, t.toBool budget = .error (.shape k) → ∀ p, ¬ t.Convertible (boolean p) := by
  simp only [toNumber_eq_evaluate, toBool_eq_evaluate]
  refine ⟨?_, ?_, ?_, ?_, ?_, ?_⟩
  · intro ht hu
    exact numbers.evaluate_eq_of_convertible h ht hu
  · intro ht hu
    exact truths.evaluate_eq_of_convertible h ht hu
  · intro n hn
    exact numbers.exists_reduces_of_evaluate hn
  · intro p hp
    exact truths.exists_reduces_of_evaluate hp
  · intro k hk
    exact numbers.not_convertible_of_evaluate hk
  · intro k hk
    exact truths.not_convertible_of_evaluate hk

/-- The first term discards an argument without a normal form, the second one adds.  They meet in
the numeral of 1, and that is no boolean. -/
theorem decoding_consistent_discarded :
    let ω := abs "x" (app (var "x") (var "x"))
    let t := app (abs "z" (numeral 1)) (app ω ω)
    let u := Combinator.add.binary (numeral 0) (numeral 1)
    t.Convertible u ∧ t.toNumber 1 = .ok 1 ∧ t.toNumber 1 = u.toNumber 6 ∧
      t.toBool 1 = .error (.shape .truth) ∧ ∀ p, ¬ t.Convertible (boolean p) := by
  intro ω t u
  have ht : (Strategy.normalOrder true).reduce 1 t = .ok (numeral 1) := by decide +kernel
  have hu : (Strategy.normalOrder true).reduce 6 u = .ok (numeral 1) := by decide +kernel
  have hone : t.toNumber 1 = .ok 1 := by decide +kernel
  have hone' : u.toNumber 6 = .ok 1 := by decide +kernel
  have hshape : t.toBool 1 = .error (.shape .truth) := by decide +kernel
  have htn : t.Convertible (numeral 1) :=
    (Strategy.reduces_of_reduce ht).toAlpha.convertible
  have hun : u.Convertible (numeral 1) :=
    (Strategy.reduces_of_reduce hu).toAlpha.convertible
  have h : t.Convertible u := htn.trans hun.symm
  obtain ⟨hnumber, -, -, -, -, htruth⟩ := decoding_consistent h 1 6
  refine ⟨h, hone, hnumber ?_ ?_, hshape, htruth .truth hshape⟩
  · intro e he
    rw [hone] at he
    cases he
  · intro e he
    rw [hone'] at he
    cases he

end Church

end NamedLambda
