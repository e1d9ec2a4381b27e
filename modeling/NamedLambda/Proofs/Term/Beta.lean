/-
NamedLambda/Proofs/Term/Beta.lean

Reduction of named terms: `contract` is applied to a redex anywhere in a term.

A named step and a nameless step are two views of one thing.  A named step is a nameless step on
what the terms denote (`Beta.denote`), and every nameless step on the denotation of a term comes
from a named step (`exists_beta_of_denote`), provided that names stand for variables, so that no
value brings a redex of its own.  So what holds of nameless reduction holds of named reduction up
to the names of bound variables.
-/
import NamedLambda.Proofs.Nameless.Confluence
import NamedLambda.Proofs.Term.Substitution

namespace NamedLambda

namespace Term

open Nameless (free)

/-! ### Steps -/

/-- One contraction, at any place. -/
inductive Beta : Term → Term → Prop
  | contract {t u : Term} : t.contract = some u → Beta t u
  | abs (x : Name) {b b' : Term} : Beta b b' → Beta (abs x b) (abs x b')
  | appLeft {f f' : Term} (a : Term) : Beta f f' → Beta (app f a) (app f' a)
  | appRight (f : Term) {a a' : Term} : Beta a a' → Beta (app f a) (app f a')

/-- Any number of contractions. -/
abbrev Reduces : Term → Term → Prop :=
  Relation.ReflTransGen Beta

/-- Any number of contractions and of changes of bound names. -/
abbrev ReducesAlpha : Term → Term → Prop :=
  Relation.ReflTransGen fun t u => t.Beta u ∨ t.alphaEq u

/-- A term without a redex. -/
def Normal (t : Term) : Prop :=
  ∀ u, ¬ t.Beta u

theorem contract_eq_some_iff {t u : Term} :
    t.contract = some u ↔ ∃ x b a, t = app (abs x b) a ∧ b.substitute x a = u := by
  constructor
  · intro h
    unfold contract at h
    split at h
    · next x b a => exact ⟨x, b, a, rfl, Option.some.inj h⟩
    · cases h
  · rintro ⟨x, b, a, rfl, rfl⟩
    rfl

/-- The contraction of a redex denotes the instantiation of the body. -/
theorem denote_contract (x : Name) (b a : Term) (ρ : Valuation) :
    (b.substitute x a).denote ρ = (b.denote (ρ.bind x)).instantiate (a.denote ρ) := by
  rw [denote_substitute, denote_bind_instantiate]

/-! ### Named and nameless steps -/

/-- A step is a step on what the terms denote. -/
theorem Beta.denote {t u : Term} (h : Beta t u) (ρ : Valuation) :
    Nameless.Beta (t.denote ρ) (u.denote ρ) := by
  induction h generalizing ρ with
  | contract hc =>
      obtain ⟨x, b, a, rfl, rfl⟩ := contract_eq_some_iff.1 hc
      rw [denote_contract]
      exact .contract _ _
  | abs x _ ih => exact .abs (ih _)
  | appLeft a _ ih => exact .appLeft _ (ih ρ)
  | appRight f _ ih => exact .appRight _ (ih ρ)

/-- An abstraction that is applied takes the argument as the value of its parameter. -/
theorem reduces_abs_denote (x : Name) (b : Term) (ρ : Valuation) (v : Nameless) :
    Nameless.Reduces (.app ((abs x b).denote ρ) v) (b.denote (Function.update ρ x v)) := by
  rw [← denote_bind_instantiate]
  exact .single (.contract _ v)

theorem reduces_abs_nameless (x : Name) (b : Term) (v : Nameless) :
    Nameless.Reduces (.app (abs x b).nameless v) (b.denote (Function.update free x v)) := by
  rw [nameless_eq_denote]
  exact reduces_abs_denote x b free v

theorem reduces_abs_abs_nameless (x y : Name) (b : Term) (v w : Nameless) :
    Nameless.Reduces (.app (.app (abs x (abs y b)).nameless v) w)
      (b.denote (Function.update (Function.update free x v) y w)) := by
  have hfirst := reduces_abs_nameless x (abs y b) v
  exact (hfirst.app .refl).trans (reduces_abs_denote y b _ w)

/-- A term that denotes an abstraction is one. -/
theorem eq_abs_of_denote_eq_abs {t : Term} {ρ : Valuation} (hρ : ρ.Atomic) {n : Nameless}
    (h : t.denote ρ = .abs n) : ∃ x b, t = abs x b ∧ b.denote (ρ.bind x) = n := by
  cases t with
  | var y =>
      rcases hρ y with ⟨i, hi⟩ | ⟨z, hz⟩
      · rw [denote, hi] at h
        cases h
      · rw [denote, hz] at h
        cases h
  | abs x b => exact ⟨x, b, rfl, Nameless.abs.inj h⟩
  | app f a => cases h

/-- Every step on what a term denotes comes from a step of the term. -/
theorem exists_beta_of_denote {t : Term} {ρ : Valuation} (hρ : ρ.Atomic) {n : Nameless}
    (h : Nameless.Beta (t.denote ρ) n) : ∃ u, Beta t u ∧ u.denote ρ = n := by
  induction t generalizing ρ n with
  | var y =>
      rcases hρ y with ⟨i, hi⟩ | ⟨z, hz⟩
      · rw [denote, hi] at h
        exact absurd h (Nameless.normal_bound i n)
      · rw [denote, hz] at h
        exact absurd h (Nameless.normal_free z n)
  | abs x b ih =>
      cases h with
      | abs hb =>
          obtain ⟨u, hu, rfl⟩ := ih (hρ.bind x) hb
          exact ⟨abs x u, .abs x hu, rfl⟩
  | app f a ihf iha =>
      generalize hf : f.denote ρ = fd at *
      generalize ha : a.denote ρ = ad at *
      rw [denote, hf, ha] at h
      cases h with
      | contract b _ =>
          -- The operator denotes an abstraction, so it is one, and the term itself is a redex.
          obtain ⟨x, b, rfl, rfl⟩ := eq_abs_of_denote_eq_abs hρ hf
          exact ⟨b.substitute x a, .contract rfl, by rw [denote_contract, ha]⟩
      | appLeft _ hl =>
          obtain ⟨u, hu, rfl⟩ := ihf hρ (hf ▸ hl)
          exact ⟨app u a, .appLeft a hu, by rw [denote, ha]⟩
      | appRight _ hr =>
          obtain ⟨u, hu, rfl⟩ := iha hρ (ha ▸ hr)
          exact ⟨app f u, .appRight f hu, by rw [denote, hf]⟩

/-! ### Nameless forms -/

theorem Beta.nameless {t u : Term} (h : Beta t u) : Nameless.Beta t.nameless u.nameless := by
  rw [nameless_eq_denote, nameless_eq_denote]
  exact h.denote free

theorem exists_beta_of_nameless {t : Term} {n : Nameless} (h : Nameless.Beta t.nameless n) :
    ∃ u, Beta t u ∧ u.nameless = n := by
  rw [nameless_eq_denote] at h
  obtain ⟨u, hu, hn⟩ := exists_beta_of_denote Valuation.atomic_free h
  exact ⟨u, hu, by rw [nameless_eq_denote, hn]⟩

theorem exists_reduces_of_nameless {t : Term} {n : Nameless}
    (h : Nameless.Reduces t.nameless n) : ∃ u, Reduces t u ∧ u.nameless = n := by
  induction h with
  | refl => exact ⟨t, .refl, rfl⟩
  | tail _ hstep ih =>
      obtain ⟨u, hu, rfl⟩ := ih
      obtain ⟨v, hv, rfl⟩ := exists_beta_of_nameless hstep
      exact ⟨v, hu.tail hv, rfl⟩

/-- Changes of bound names on the way leave no trace in the nameless forms. -/
theorem ReducesAlpha.nameless {t u : Term} (h : ReducesAlpha t u) :
    Nameless.Reduces t.nameless u.nameless := by
  induction h with
  | refl => exact .refl
  | tail _ hstep ih =>
      rcases hstep with hb | ha
      · exact ih.tail hb.nameless
      · exact alphaEq_iff.1 ha ▸ ih

theorem Reduces.toAlpha {t u : Term} (h : Reduces t u) : ReducesAlpha t u := by
  induction h with
  | refl => exact .refl
  | tail _ hstep ih => exact ih.tail (Or.inl hstep)

/-- Up to bound names, a term reduces to all that its nameless form reduces to. -/
theorem ReducesAlpha.of_nameless {t u : Term} (h : Nameless.Reduces t.nameless u.nameless) :
    ReducesAlpha t u := by
  obtain ⟨v, hv, hn⟩ := exists_reduces_of_nameless h
  exact hv.toAlpha.tail (Or.inr (alphaEq_iff.2 hn))

theorem normal_nameless_iff {t : Term} : t.nameless.Normal ↔ t.Normal := by
  constructor
  · intro h u hu
    exact h _ hu.nameless
  · intro h n hn
    obtain ⟨u, hu, -⟩ := exists_beta_of_nameless hn
    exact h u hu

/-! ### Confluence -/

/-- Two reducts of a term have reducts that are equal up to bound names. -/
theorem ReducesAlpha.confluent {t u v : Term} (hu : ReducesAlpha t u) (hv : ReducesAlpha t v) :
    ∃ u' v', Reduces u u' ∧ Reduces v v' ∧ u'.alphaEq v' := by
  obtain ⟨n, hun, hvn⟩ := hu.nameless.confluent hv.nameless
  obtain ⟨u', hu', rfl⟩ := exists_reduces_of_nameless hun
  obtain ⟨v', hv', hn⟩ := exists_reduces_of_nameless hvn
  exact ⟨u', v', hu', hv', alphaEq_iff.2 hn.symm⟩

/-- A term has at most one normal form, up to bound names. -/
theorem ReducesAlpha.normal_unique {t u v : Term} (hu : ReducesAlpha t u)
    (hv : ReducesAlpha t v) (hnu : u.Normal) (hnv : v.Normal) : u.alphaEq v :=
  alphaEq_iff.2 (hu.nameless.normal_unique hv.nameless (normal_nameless_iff.2 hnu)
    (normal_nameless_iff.2 hnv))

/-! ### The structure of normal terms -/

theorem normal_var (x : Name) : (var x).Normal := by
  intro u h
  cases h with
  | contract hc => cases hc

theorem normal_abs_iff {x : Name} {b : Term} : (abs x b).Normal ↔ b.Normal := by
  constructor
  · intro h u hu
    exact h _ (.abs x hu)
  · intro h u hu
    cases hu with
    | contract hc => cases hc
    | abs _ hb => exact h _ hb

theorem normal_app_iff {f a : Term} :
    (app f a).Normal ↔ (app f a).contract = none ∧ f.Normal ∧ a.Normal := by
  constructor
  · intro h
    refine ⟨?_, fun u hu => h _ (.appLeft a hu), fun u hu => h _ (.appRight f hu)⟩
    rcases hc : (app f a).contract with - | u
    · rfl
    · exact absurd (.contract hc) (h u)
  · rintro ⟨hc, hf, ha⟩ u hu
    cases hu with
    | contract hu =>
        rw [hc] at hu
        cases hu
    | appLeft _ hl => exact hf _ hl
    | appRight _ hr => exact ha _ hr

end Term

end NamedLambda
