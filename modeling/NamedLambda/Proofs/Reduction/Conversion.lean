/-
NamedLambda/Proofs/Reduction/Conversion.lean

Conversion: contractions, forwards and backwards, and changes of bound names.

On nameless forms, to have a common reduct is an equivalence because reduction is confluent, and one
contraction or change of names gives a common reduct.  So convertible terms have one, however often
the way between them turns back (`Convertible.exists_join`).  A normal form has no reduct but
itself, so it is the normal form of every term that is convertible to the one it came from
(`IsNormalFormOf.of_convertible`).
-/
import NamedLambda.Proofs.Reduction.Agreement

namespace NamedLambda

namespace Term

/-- Contractions in either direction and changes of bound names lead from one term to the other. -/
def Convertible : Term → Term → Prop :=
  Relation.EqvGen fun t u => t.Beta u ∨ t.alphaEq u

/-! ### Conversion is an equivalence that contains reduction -/

theorem Convertible.refl (t : Term) : t.Convertible t :=
  Relation.EqvGen.refl t

theorem Convertible.symm {t u : Term} (h : t.Convertible u) : u.Convertible t :=
  Relation.EqvGen.symm t u h

theorem Convertible.trans {t u v : Term} (h : t.Convertible u) (h' : u.Convertible v) :
    t.Convertible v :=
  Relation.EqvGen.trans t u v h h'

theorem ReducesAlpha.convertible {t u : Term} (h : t.ReducesAlpha u) : t.Convertible u := by
  induction h with
  | refl => exact .refl t
  | tail _ hstep ih => exact ih.trans (Relation.EqvGen.rel _ _ hstep)

/-! ### Common reducts -/

/-- The nameless forms of convertible terms have a common reduct. -/
theorem Convertible.join_nameless {t u : Term} (h : t.Convertible u) :
    Relation.Join Nameless.Reduces t.nameless u.nameless := by
  have hequiv : Equivalence (Relation.Join Nameless.Reduces) :=
    Relation.equivalence_join fun _ _ _ hb hc => hb.confluent hc
  induction h with
  | rel t u hstep =>
      rcases hstep with hb | ha
      · exact ⟨u.nameless, .single hb.nameless, .refl⟩
      · rw [alphaEq_iff.1 ha]
        exact hequiv.refl u.nameless
  | refl t => exact hequiv.refl t.nameless
  | symm t u _ ih => exact hequiv.symm ih
  | trans t u v _ _ ih ih' => exact hequiv.trans ih ih'

/-- **Convertible terms have reducts that are equal up to bound names.** -/
theorem Convertible.exists_join {t u : Term} (h : t.Convertible u) :
    ∃ t' u', t.Reduces t' ∧ u.Reduces u' ∧ t'.alphaEq u' := by
  obtain ⟨n, htn, hun⟩ := h.join_nameless
  obtain ⟨t', ht', rfl⟩ := exists_reduces_of_nameless htn
  obtain ⟨u', hu', hn⟩ := exists_reduces_of_nameless hun
  exact ⟨t', u', ht', hu', alphaEq_iff.2 hn.symm⟩

/-- Convertible terms have the same normal forms. -/
theorem IsNormalFormOf.of_convertible {n t u : Term} (hn : n.IsNormalFormOf t)
    (h : t.Convertible u) : n.IsNormalFormOf u := by
  obtain ⟨m, htm, hum⟩ := h.join_nameless
  obtain ⟨w, hmw, hnw⟩ := htm.confluent hn.2.nameless
  -- What `n` and the common reduct both reduce to is `n` itself.
  obtain rfl : w = n.nameless := (normal_nameless_iff.2 hn.1).eq_of_reduces hnw
  exact ⟨hn.1, .of_nameless (hum.trans hmw)⟩

end Term

end NamedLambda
