/-
NamedLambda/Proofs/Church/Decoding.lean

The decoders see the binding structure of a term and not its names.

They compare names, and two equal parameters hide one another from them.  In the nameless form the
two parameters are the indices 0 and 1, whatever they are called, and the decoders can be given by
the shape of that form alone.  Main facts: `decodeNumeral_nameless` and `decodeBoolean_nameless`.
-/
import NamedLambda.Church.Encoding
import NamedLambda.Proofs.Term.Denotation

namespace NamedLambda

/-! ### Decoding without names -/

namespace Nameless

/-- How often the outer one of two parameters is applied to the inner one. -/
def countApplications : Nameless → Option Nat
  | bound 0 => some 0
  | app (bound 1) a => a.countApplications.map (· + 1)
  | _ => none

/-- The number whose numeral a term is. -/
def decodeNumeral : Nameless → Option Nat
  | abs (abs body) => body.countApplications
  | _ => none

/-- The truth value whose boolean a term is. -/
def decodeBoolean : Nameless → Option Bool
  | abs (abs (bound 0)) => some false
  | abs (abs (bound 1)) => some true
  | _ => none

end Nameless

namespace Church

open Term
open Nameless (bound free)

/-! ### Two parameters -/

/-- What names stand for under two binders. -/
def parameters (f x : Name) : Valuation :=
  Valuation.bind (Valuation.bind free f) x

theorem parameters_apply (f x y : Name) :
    parameters f x y = if y = x then bound 0 else if y = f then bound 1 else free y := by
  by_cases hx : y = x
  · rw [if_pos hx, hx]
    exact Valuation.bind_self _ x
  · rw [if_neg hx, parameters, Valuation.bind_of_ne _ hx]
    by_cases hf : y = f
    · rw [if_pos hf, hf, Valuation.bind_self]
      rfl
    · rw [if_neg hf, Valuation.bind_of_ne _ hf]
      rfl

/-! ### The decoders -/

theorem countApplications_denote (f x : Name) (t : Term) :
    (t.denote (parameters f x)).countApplications = countApplications f x t := by
  induction t with
  | var y =>
      rw [denote, parameters_apply, countApplications]
      by_cases hx : y = x
      · rw [if_pos hx, if_pos hx]
        rfl
      · rw [if_neg hx, if_neg hx]
        split <;> rfl
  | abs y b _ => rfl
  | app g a _ iha =>
      cases g with
      | var y =>
          rw [denote, denote, parameters_apply, countApplications]
          by_cases hx : y = x
          · -- The operator is the inner parameter, also if the outer one has the same name.
            have hnot : ¬ (f ≠ x ∧ y = f) := fun h => h.1 (h.2.symm.trans hx)
            rw [if_pos hx, if_neg hnot]
            rfl
          · by_cases hf : y = f
            · have hboth : f ≠ x ∧ y = f := ⟨hf ▸ hx, hf⟩
              rw [if_neg hx, if_pos hf, if_pos hboth, ← iha]
              rfl
            · rw [if_neg hx, if_neg hf, if_neg fun h => hf h.2]
              rfl
      | abs y b => rfl
      | app g c => rfl

/-- The number that a term encodes is determined by its nameless form. -/
theorem decodeNumeral_nameless (t : Term) : t.nameless.decodeNumeral = decodeNumeral t := by
  rw [nameless_eq_denote]
  cases t with
  | var x => rfl
  | abs f b =>
      cases b with
      | var x =>
          have hρ := Valuation.atomic_free.bind f
          exact hρ.apply_eq (F := fun n => n.abs.decodeNumeral) (fun _ => rfl) (fun _ => rfl) x
      | abs x body => exact countApplications_denote f x body
      | app g a => rfl
  | app f a => rfl

/-- The truth value that a term encodes is determined by its nameless form. -/
theorem decodeBoolean_nameless (t : Term) : t.nameless.decodeBoolean = decodeBoolean t := by
  rw [nameless_eq_denote]
  cases t with
  | var x => rfl
  | abs p b =>
      cases b with
      | var x =>
          have hρ := Valuation.atomic_free.bind p
          exact hρ.apply_eq (F := fun n => n.abs.decodeBoolean) (fun _ => rfl) (fun _ => rfl) x
      | abs q body =>
          cases body with
          | var y =>
              show (parameters p q y).abs.abs.decodeBoolean = _
              rw [parameters_apply, decodeBoolean]
              by_cases hq : y = q
              · rw [if_pos hq, if_pos hq]
                rfl
              · rw [if_neg hq, if_neg hq]
                split <;> rfl
          | abs x c => rfl
          | app g a => rfl
      | app g a => rfl
  | app f a => rfl

end Church

end NamedLambda
