/-
NamedLambda/Proofs/Term/FreeVariables.lean

Free variables, found in different ways, and what becomes of them.

A walk through a term that keeps the binders it is under on a stack finds the same names as the
recursion of `freeVariables`, which takes each binder's name away again (`gatherFree_eq`).  The
nameless form shows them, too: its names are the free variables of the term (`mentions_nameless`).
What a term denotes mentions what the values of its free variables mention (`mentions_denote`), so
every operation that is known by what its result denotes is known by its free variables as well, and
no renaming of a binder has to be looked at.

Main facts: `freeVariables_substitute`, `substitute_of_not_occursFree` and `Beta.occursFree`.
-/
import NamedLambda.Proofs.Term.Beta

namespace NamedLambda

/-! ### Names of nameless terms -/

namespace Nameless

/-- The name `x` stands in the term. -/
def Mentions (x : Name) : Nameless → Prop
  | bound _ => False
  | free y => y = x
  | abs b => b.Mentions x
  | app f a => f.Mentions x ∨ a.Mentions x

theorem mentions_rename {t : Nameless} {ξ : Nat → Nat} {x : Name} :
    (t.rename ξ).Mentions x ↔ t.Mentions x := by
  induction t generalizing ξ with
  | bound i => exact Iff.rfl
  | free y => exact Iff.rfl
  | abs b ih => exact ih
  | app f a ihf iha => exact or_congr ihf iha

end Nameless

namespace Term

open Nameless (free Mentions)

theorem occursFree_var {x y : Name} : (var y).occursFree x ↔ y = x := by
  simp [occursFree]

theorem occursFree_abs {x y : Name} {b : Term} :
    (abs y b).occursFree x ↔ y ≠ x ∧ b.occursFree x := by
  simp [occursFree]

theorem occursFree_app {x : Name} {f a : Term} :
    (app f a).occursFree x ↔ f.occursFree x ∨ a.occursFree x := by
  simp [occursFree]

/-- Under a binder, the values of the other names mention what they mentioned before. -/
theorem mentions_bind {ρ : Valuation} {x y z : Name} :
    (ρ.bind y z).Mentions x ↔ z ≠ y ∧ (ρ z).Mentions x := by
  by_cases hz : z = y
  · rw [hz, Valuation.bind_self]
    simp [Mentions]
  · rw [Valuation.bind_of_ne ρ hz, Nameless.shift, Nameless.mentions_rename]
    simp [hz]

/-- What a term denotes mentions what the values of its free variables mention. -/
theorem mentions_denote {t : Term} {ρ : Valuation} {x : Name} :
    (t.denote ρ).Mentions x ↔ ∃ y, t.occursFree y ∧ (ρ y).Mentions x := by
  induction t generalizing ρ with
  | var z => simp [denote, occursFree_var]
  | abs z b ih =>
      show (b.denote (ρ.bind z)).Mentions x ↔ _
      simp only [ih, mentions_bind, occursFree_abs]
      refine exists_congr fun y => ?_
      constructor
      · rintro ⟨hb, hne, hy⟩
        exact ⟨⟨Ne.symm hne, hb⟩, hy⟩
      · rintro ⟨⟨hne, hb⟩, hy⟩
        exact ⟨hb, Ne.symm hne, hy⟩
  | app f a ihf iha =>
      show (f.denote ρ).Mentions x ∨ (a.denote ρ).Mentions x ↔ _
      simp only [ihf, iha, occursFree_app, or_and_right, exists_or]

/-- The names of the nameless form are the free variables. -/
theorem mentions_nameless {t : Term} {x : Name} : t.nameless.Mentions x ↔ t.occursFree x := by
  rw [nameless_eq_denote, mentions_denote]
  simp [Mentions]

/-! ### The walk under a stack of binders -/

/-- The names found by a walk from left to right: those of `found`, and those that occur in the term
where no binder of theirs is on the stack. -/
def gatherFree (stack : List Name) (found : NameSet) : Term → NameSet
  | var x => if x ∈ stack then found else found.insert x
  | abs x b => b.gatherFree (x :: stack) found
  | app f a => a.gatherFree stack (f.gatherFree stack found)

theorem mem_gatherFree {t : Term} {stack : List Name} {found : NameSet} {x : Name} :
    x ∈ t.gatherFree stack found ↔ x ∈ found ∨ t.occursFree x ∧ x ∉ stack := by
  induction t generalizing stack found with
  | var y =>
      rw [gatherFree, occursFree_var]
      split
      · next hy =>
          refine ⟨Or.inl, ?_⟩
          rintro (h | ⟨rfl, h⟩)
          · exact h
          · exact absurd hy h
      · next hy =>
          rw [NameSet.mem_insert]
          constructor
          · rintro (rfl | h)
            · exact Or.inr ⟨rfl, hy⟩
            · exact Or.inl h
          · rintro (h | ⟨rfl, -⟩)
            · exact Or.inr h
            · exact Or.inl rfl
  | abs y b ih =>
      rw [gatherFree, ih, occursFree_abs, List.mem_cons, not_or]
      grind
  | app f a ihf iha =>
      rw [gatherFree, iha, ihf, occursFree_app, or_and_right, or_assoc]

/-- The walk and the recursion find the same set. -/
theorem gatherFree_eq (t : Term) : t.gatherFree [] ∅ = t.freeVariables := by
  refine NameSet.ext fun x => ?_
  rw [mem_gatherFree, mem_freeVariables]
  simp

/-! ### Substitution -/

theorem occursFree_substitute {t r : Term} {x z : Name} :
    (t.substitute x r).occursFree z ↔
      (t.occursFree z ∧ z ≠ x) ∨ (t.occursFree x ∧ r.occursFree z) := by
  rw [← mentions_nameless, nameless_substitute, mentions_denote]
  constructor
  · rintro ⟨y, hy, hz⟩
    by_cases hyx : y = x
    · rw [hyx, Function.update_self, mentions_nameless] at hz
      exact Or.inr ⟨hyx ▸ hy, hz⟩
    · rw [Function.update_of_ne hyx] at hz
      obtain rfl : y = z := hz
      exact Or.inl ⟨hy, hyx⟩
  · rintro (⟨hz, hne⟩ | ⟨hx, hz⟩)
    · refine ⟨z, hz, ?_⟩
      rw [Function.update_of_ne hne]
      rfl
    · refine ⟨x, hx, ?_⟩
      rwa [Function.update_self, mentions_nameless]

/-- A name that does not occur free is replaced nowhere, and no binder is renamed for it. -/
theorem substitute_of_not_occursFree {t : Term} {x : Name} (h : ¬ t.occursFree x) (r : Term) :
    t.substitute x r = t := by
  induction t with
  | var y =>
      rw [occursFree_var] at h
      rw [substitute_var, if_neg h]
  | abs y b ih =>
      rw [occursFree_abs, not_and] at h
      rw [substitute_abs]
      by_cases hyx : y = x
      · rw [if_pos hyx]
      · have hb : ¬ b.occursFree x := h hyx
        have hcap : ¬ (r.occursFree y && b.occursFree x) = true := by simp [hb]
        rw [if_neg hyx, if_neg hcap, ih hb]
  | app f a ihf iha =>
      rw [occursFree_app, not_or] at h
      rw [substitute_app, ihf h.1, iha h.2]

/-- Where the name occurs free, the free variables of the replacement come in for it. -/
theorem freeVariables_substitute {t : Term} {x : Name} (h : t.occursFree x) (r : Term) :
    (t.substitute x r).freeVariables = t.freeVariables.erase x ∪ r.freeVariables := by
  refine NameSet.ext fun z => ?_
  simp only [mem_freeVariables, occursFree_substitute, NameSet.mem_union, NameSet.mem_erase, h,
    true_and]

/-! ### Reduction -/

/-- A contraction makes no free variable that was not there before. -/
theorem Beta.occursFree {t u : Term} (h : t.Beta u) {x : Name} (hx : u.occursFree x) :
    t.occursFree x := by
  induction h with
  | contract hc =>
      obtain ⟨y, b, a, rfl, rfl⟩ := contract_eq_some_iff.1 hc
      rw [occursFree_app, occursFree_abs]
      rcases occursFree_substitute.1 hx with ⟨hb, hne⟩ | ⟨-, ha⟩
      · exact Or.inl ⟨Ne.symm hne, hb⟩
      · exact Or.inr ha
  | abs y _ ih =>
      rw [occursFree_abs] at hx ⊢
      exact ⟨hx.1, ih hx.2⟩
  | appLeft a _ ih =>
      rw [occursFree_app] at hx ⊢
      exact hx.imp_left ih
  | appRight f _ ih =>
      rw [occursFree_app] at hx ⊢
      exact hx.imp_right ih

end Term

end NamedLambda
