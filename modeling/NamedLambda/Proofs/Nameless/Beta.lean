/-
NamedLambda/Proofs/Nameless/Beta.lean

Reduction of nameless terms: a redex anywhere in a term is contracted.  A term is normal if there is
no redex in it.

Main facts: reduction is a congruence (`Reduces.app`, `Reduces.abs`), and `normal_abs_iff` and
`normal_app_iff` describe normal terms by their structure.
-/
import Mathlib.Logic.Relation
import NamedLambda.Proofs.Nameless.Substitution

namespace NamedLambda

namespace Nameless

/-! ### Steps -/

/-- One contraction, at any place. -/
inductive Beta : Nameless → Nameless → Prop
  | contract (b a : Nameless) : Beta (app (abs b) a) (b.instantiate a)
  | abs {b b' : Nameless} : Beta b b' → Beta (abs b) (abs b')
  | appLeft {f f' : Nameless} (a : Nameless) : Beta f f' → Beta (app f a) (app f' a)
  | appRight (f : Nameless) {a a' : Nameless} : Beta a a' → Beta (app f a) (app f a')

/-- Any number of contractions. -/
abbrev Reduces : Nameless → Nameless → Prop :=
  Relation.ReflTransGen Beta

theorem Reduces.abs {b b' : Nameless} (h : Reduces b b') : Reduces (abs b) (abs b') :=
  h.lift Nameless.abs fun _ _ => Beta.abs

theorem Reduces.app {f f' a a' : Nameless} (hf : Reduces f f') (ha : Reduces a a') :
    Reduces (app f a) (app f' a') := by
  have hl : Reduces (Nameless.app f a) (Nameless.app f' a) :=
    hf.lift (Nameless.app · a) fun _ _ => Beta.appLeft a
  have hr : Reduces (Nameless.app f' a) (Nameless.app f' a') :=
    ha.lift (Nameless.app f') fun _ _ => Beta.appRight f'
  exact hl.trans hr

/-! ### Normal terms -/

/-- A term without a redex. -/
def Normal (t : Nameless) : Prop :=
  ∀ u, ¬ Beta t u

/-- Whether a term is an abstraction. -/
def isAbs : Nameless → Bool
  | abs _ => true
  | _ => false

theorem isAbs_iff {t : Nameless} : t.isAbs ↔ ∃ b, t = abs b := by
  cases t <;> simp [isAbs]

theorem normal_bound (i : Nat) : Normal (bound i) := by
  intro u h
  cases h

theorem normal_free (x : Name) : Normal (free x) := by
  intro u h
  cases h

theorem normal_abs_iff {b : Nameless} : Normal (abs b) ↔ Normal b := by
  constructor
  · intro h u hu
    exact h _ (.abs hu)
  · intro h u hu
    cases hu with
    | abs hb => exact h _ hb

theorem normal_app_iff {f a : Nameless} :
    Normal (app f a) ↔ f.isAbs = false ∧ Normal f ∧ Normal a := by
  constructor
  · intro h
    refine ⟨?_, fun u hu => h _ (.appLeft a hu), fun u hu => h _ (.appRight f hu)⟩
    cases f with
    | abs b => exact absurd (.contract b a) (h _)
    | _ => rfl
  · rintro ⟨hf, hnf, hna⟩ u hu
    cases hu with
    | contract b a => simp [isAbs] at hf
    | appLeft a hl => exact hnf _ hl
    | appRight f hr => exact hna _ hr

/-- A normal term reduces to itself only. -/
theorem Normal.eq_of_reduces {t u : Nameless} (ht : Normal t) (h : Reduces t u) : u = t := by
  rcases Relation.ReflTransGen.cases_head h with h | ⟨v, hv, -⟩
  · exact h.symm
  · exact absurd hv (ht v)

end Nameless

end NamedLambda
