/-
NamedLambda/Proofs/Reduction/Correspondence.lean

What a strategy does is determined up to the names of bound variables.

Every search for a redex has a counterpart in nameless terms, which goes through the parts of a term
in the same order.  The two searches find the same redex: what a step makes of a term denotes what
the nameless step makes of what the term denotes.  This holds under every valuation by variables,
and has to be stated so, for under a binder no name stands for itself any longer.

Main fact: `Strategy.map_step_nameless` says so for every strategy and the nameless form of a term.
-/
import NamedLambda.Proofs.Nameless.Search
import NamedLambda.Proofs.Reduction.Search

namespace NamedLambda

/-! ### The searches in nameless terms -/

namespace Nameless

/-- Contract the first redex when a node comes after its parts.  The search enters arguments, and
bodies if `bodies` says so. -/
def innermostStep (bodies : Bool) : Nameless → Option Nameless
  | bound _ => none
  | free _ => none
  | abs b => if bodies then (b.innermostStep bodies).map abs else none
  | app f a =>
      (((f.innermostStep bodies).map (app · a)).or ((a.innermostStep bodies).map (app f))).or
        (contract (app f a))

/-- Contract the redex at the head, under any abstractions that lead to it. -/
def headStep : Nameless → Option Nameless :=
  outermostStep true false

/-- Contract a redex in the leftmost argument of the spine that has one, in each argument the head
first. -/
def argumentStep : Nameless → Option Nameless
  | bound _ => none
  | free _ => none
  | abs b => b.argumentStep.map abs
  | app f a => (f.argumentStep.map (app · a)).or ((a.headStep.or a.argumentStep).map (app f))

/-- Contract the head redex, or else a redex in an argument. -/
def spineStep (t : Nameless) : Option Nameless :=
  t.headStep.or t.argumentStep

end Nameless

/-- One step of reduction of a nameless term. -/
def Strategy.namelessStep : Strategy → Nameless → Option Nameless
  | callByValue => Nameless.innermostStep false
  | callByName => Nameless.outermostStep false false
  | normalOrder deep => Nameless.outermostStep deep true
  | applicativeOrder deep => Nameless.innermostStep deep
  | headSpine false => Nameless.headStep
  | headSpine true => Nameless.spineStep

/-! ### Contraction -/

theorem Valuation.Atomic.isAbs {ρ : Valuation} (hρ : ρ.Atomic) (x : Name) :
    (ρ x).isAbs = false :=
  hρ.apply_eq (fun _ => rfl) (fun _ => rfl) x

namespace Term

theorem map_contract_denote (t : Term) {ρ : Valuation} (hρ : ρ.Atomic) :
    t.contract.map (denote ρ) = (t.denote ρ).contract := by
  cases t with
  | var x => exact (hρ.apply_eq (fun _ => rfl) (fun _ => rfl) x).symm
  | abs x b => rfl
  | app f a =>
      cases f with
      | var x => exact (Nameless.contract_app_eq_none_iff.2 (hρ.isAbs x)).symm
      | abs x b => exact congrArg some (denote_contract x b a ρ)
      | app g c => rfl

/-! ### Steps inside a term -/

section Parts

variable (ρ : Valuation) (found : Option Term)

theorem map_abs_denote (x : Name) :
    (found.map (abs x)).map (denote ρ) = (found.map (denote (ρ.bind x))).map .abs := by
  rw [Option.map_map, Option.map_map]
  rfl

theorem map_appLeft_denote (a : Term) :
    (found.map (app · a)).map (denote ρ) =
      (found.map (denote ρ)).map (Nameless.app · (a.denote ρ)) := by
  rw [Option.map_map, Option.map_map]
  rfl

theorem map_appRight_denote (f : Term) :
    (found.map (app f)).map (denote ρ) =
      (found.map (denote ρ)).map (Nameless.app (f.denote ρ)) := by
  rw [Option.map_map, Option.map_map]
  rfl

end Parts

/-! ### The searches find the same redex -/

theorem nameless_eq_denote_free : nameless = denote Nameless.free :=
  funext nameless_eq_denote

theorem map_outermostStep_denote (bodies arguments : Bool) (t : Term) {ρ : Valuation}
    (hρ : ρ.Atomic) :
    (t.outermostStep bodies arguments).map (denote ρ) =
      (t.denote ρ).outermostStep bodies arguments := by
  induction t generalizing ρ with
  | var x => exact (hρ.apply_eq (fun _ => rfl) (fun _ => rfl) x).symm
  | abs x b ih =>
      rw [outermostStep, denote, Nameless.outermostStep]
      cases bodies with
      | false => rfl
      | true => rw [if_pos rfl, if_pos rfl, map_abs_denote, ih (hρ.bind x)]
  | app f a ihf iha =>
      rw [outermostStep_app, denote, Nameless.outermostStep, Option.map_or, Option.map_or,
        map_contract_denote _ hρ, map_appLeft_denote, ihf hρ]
      cases arguments with
      | false => rfl
      | true => rw [if_pos rfl, if_pos rfl, map_appRight_denote, iha hρ, denote]

theorem map_outermostStep_nameless (bodies arguments : Bool) (t : Term) :
    (t.outermostStep bodies arguments).map nameless =
      t.nameless.outermostStep bodies arguments := by
  rw [nameless_eq_denote_free, map_outermostStep_denote _ _ t Valuation.atomic_free]

theorem map_innermostStep_denote (bodies : Bool) (t : Term) {ρ : Valuation} (hρ : ρ.Atomic) :
    (t.innermostStep bodies).map (denote ρ) = (t.denote ρ).innermostStep bodies := by
  induction t generalizing ρ with
  | var x => exact (hρ.apply_eq (fun _ => rfl) (fun _ => rfl) x).symm
  | abs x b ih =>
      rw [innermostStep, denote, Nameless.innermostStep]
      cases bodies with
      | false => rfl
      | true => rw [if_pos rfl, if_pos rfl, map_abs_denote, ih (hρ.bind x)]
  | app f a ihf iha =>
      rw [innermostStep_app, denote, Nameless.innermostStep, Option.map_or, Option.map_or,
        map_appLeft_denote, map_appRight_denote, ihf hρ, iha hρ, map_contract_denote _ hρ, denote]

theorem map_headStep_denote (t : Term) {ρ : Valuation} (hρ : ρ.Atomic) :
    t.headStep.map (denote ρ) = (t.denote ρ).headStep :=
  map_outermostStep_denote true false t hρ

theorem map_argumentStep_denote (t : Term) {ρ : Valuation} (hρ : ρ.Atomic) :
    t.argumentStep.map (denote ρ) = (t.denote ρ).argumentStep := by
  induction t generalizing ρ with
  | var x => exact (hρ.apply_eq (fun _ => rfl) (fun _ => rfl) x).symm
  | abs x b ih =>
      rw [argumentStep, denote, Nameless.argumentStep, map_abs_denote, ih (hρ.bind x)]
  | app f a ihf iha =>
      rw [argumentStep_app, denote, Nameless.argumentStep, Option.map_or, map_appLeft_denote,
        map_appRight_denote, ihf hρ, spineStep_eq, Option.map_or, map_headStep_denote a hρ, iha hρ]

theorem map_spineStep_denote (t : Term) {ρ : Valuation} (hρ : ρ.Atomic) :
    t.spineStep.map (denote ρ) = (t.denote ρ).spineStep := by
  rw [spineStep_eq, Option.map_or, map_headStep_denote t hρ, map_argumentStep_denote t hρ]
  rfl

end Term

namespace Strategy

open Term

theorem map_step_denote (s : Strategy) (t : Term) {ρ : Valuation} (hρ : ρ.Atomic) :
    (s.step t).map (denote ρ) = s.namelessStep (t.denote ρ) := by
  cases s with
  | callByValue => exact map_innermostStep_denote false t hρ
  | callByName => exact map_outermostStep_denote false false t hρ
  | normalOrder deep => exact map_outermostStep_denote deep true t hρ
  | applicativeOrder deep => exact map_innermostStep_denote deep t hρ
  | headSpine deep =>
      cases deep with
      | false => exact map_headStep_denote t hρ
      | true => exact map_spineStep_denote t hρ

/-- **A step of a strategy and its nameless step correspond.** -/
theorem map_step_nameless (s : Strategy) (t : Term) :
    (s.step t).map nameless = s.namelessStep t.nameless := by
  rw [nameless_eq_denote_free, map_step_denote s t Valuation.atomic_free]

end Strategy

end NamedLambda
