/-
NamedLambda/Proofs/Term/Alpha.lean

Equality up to bound names is generated by the renaming of single binders.

`AlphaConvertible` is the least equivalence relation that goes on inside terms and lets one binder
take another name, provided that the name does not occur free in the body.  The occurrences in the
body are renamed by substitution, which may have to rename binders further inside.

Convertible terms denote the same under every valuation, and so have one nameless form.  For the
other direction the induction is on the size of the term.  Two abstractions with one nameless form
both take one and the same fresh name for their binder; then their bodies have one nameless form,
and they are no larger than before, although they are not the bodies that the terms had.

Main result: `alphaEq_iff_alphaConvertible`.
-/
import NamedLambda.Proofs.Term.Substitution

namespace NamedLambda

namespace Term

open Nameless (free)

/-- One term is turned into the other by renaming binders, one at a time and at any place. -/
inductive AlphaConvertible : Term → Term → Prop
  | refl (t : Term) : AlphaConvertible t t
  | symm {t u : Term} : AlphaConvertible t u → AlphaConvertible u t
  | trans {t u v : Term} : AlphaConvertible t u → AlphaConvertible u v → AlphaConvertible t v
  | abs (x : Name) {b b' : Term} : AlphaConvertible b b' → AlphaConvertible (abs x b) (abs x b')
  | app {f f' a a' : Term} :
      AlphaConvertible f f' → AlphaConvertible a a' → AlphaConvertible (app f a) (app f' a')
  | rename (x : Name) {y : Name} {b : Term} : ¬ b.occursFree y →
      AlphaConvertible (abs x b) (abs y (b.substitute x (var y)))

/-! ### Convertible terms have one nameless form -/

/-- A renamed body denotes under its new binder what the body denotes under the old one. -/
theorem denote_bind_rename {b : Term} {y : Name} (hy : ¬ b.occursFree y) (x : Name)
    (ρ : Valuation) : (b.substitute x (var y)).denote (ρ.bind y) = b.denote (ρ.bind x) := by
  rw [denote_substitute]
  refine denote_congr fun w hw => ?_
  by_cases hwx : w = x
  · rw [hwx, Function.update_self, denote, Valuation.bind_self, Valuation.bind_self]
  · have hwy : w ≠ y := fun h => hy (h ▸ hw)
    rw [Function.update_of_ne hwx, Valuation.bind_of_ne ρ hwy, Valuation.bind_of_ne ρ hwx]

theorem AlphaConvertible.denote {t u : Term} (h : AlphaConvertible t u) (ρ : Valuation) :
    t.denote ρ = u.denote ρ := by
  induction h generalizing ρ with
  | refl t => rfl
  | symm _ ih => exact (ih ρ).symm
  | trans _ _ ih ih' => exact (ih ρ).trans (ih' ρ)
  | abs x _ ih => rw [Term.denote, Term.denote, ih]
  | app _ _ ihf iha => rw [Term.denote, Term.denote, ihf, iha]
  | rename x hy => rw [Term.denote, Term.denote, denote_bind_rename hy]

/-! ### Terms with one nameless form are convertible -/

/-- The nameless form of a renamed body is what the body denotes under its binder, with the new name
put for the index of the binder. -/
theorem nameless_rename (b : Term) (x z : Name) :
    (b.substitute x (var z)).nameless =
      (b.denote (Valuation.bind free x)).instantiate (free z) := by
  rw [nameless_substitute, denote_bind_instantiate]
  rfl

/-- Abstractions are convertible if their bodies are when both take one name for their binders that
is new to them. -/
theorem AlphaConvertible.abs_of_rename {x y z : Name} {b c : Term} (hb : ¬ b.occursFree z)
    (hc : ¬ c.occursFree z)
    (h : AlphaConvertible (b.substitute x (var z)) (c.substitute y (var z))) :
    AlphaConvertible (Term.abs x b) (Term.abs y c) :=
  (AlphaConvertible.rename x hb).trans ((h.abs z).trans (AlphaConvertible.rename y hc).symm)

theorem alphaConvertible_of_nameless {t u : Term} (h : t.nameless = u.nameless) :
    AlphaConvertible t u := by
  induction t using sizeInduction generalizing u with
  | var x =>
      cases u with
      | var y =>
          obtain rfl := Nameless.free.inj h
          exact .refl _
      | abs y c => cases h
      | app g c => cases h
  | app f a ihf iha =>
      cases u with
      | var y => cases h
      | abs y c => cases h
      | app g c =>
          obtain ⟨hf, ha⟩ := Nameless.app.inj h
          exact .app (ihf hf) (iha ha)
  | abs x b ih =>
      cases u with
      | var y => cases h
      | app g c => cases h
      | abs y c =>
          rw [nameless_eq_denote, nameless_eq_denote] at h
          have hbody := Nameless.abs.inj h
          have hb := freshBinder_not_occursFree_body x b c
          have hc := freshBinder_not_occursFree_replacement x b c
          refine .abs_of_rename hb hc (ih _ (size_substitute_var b x _) ?_)
          rw [nameless_rename, nameless_rename, hbody]

/-- **Equality up to bound names is what renaming binders generates.**  Two terms are found equal if
and only if they are related by the least equivalence relation that holds of applications and
abstractions when it holds of their parts, and between an abstraction and the one with its binder
renamed to a name that is not free in the body. -/
theorem alphaEq_iff_alphaConvertible (t u : Term) : t.alphaEq u ↔ AlphaConvertible t u := by
  rw [alphaEq_iff]
  constructor
  · exact alphaConvertible_of_nameless
  · intro h
    rw [nameless_eq_denote, nameless_eq_denote]
    exact h.denote free

/-- A name that is free in the body would be captured. -/
example :
    (abs "x" (app (var "x") (var "y"))).alphaEq
        (abs "y" ((app (var "x") (var "y")).substitute "x" (var "y"))) = false := by
  decide +kernel

end Term

end NamedLambda
