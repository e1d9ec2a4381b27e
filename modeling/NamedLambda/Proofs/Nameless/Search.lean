/-
NamedLambda/Proofs/Nameless/Search.lean

The outermost search in nameless terms, and how far its steps lead.

The weak head redex comes first in every search of this kind, so a search makes the weak head steps
of a standard reduction itself.  After them it meets the same parts of the term as the standard
reduction and can follow it into those that lie in its region.  That is why it always comes to a
stop where there is a stopping form to be reached at all (`Standard.exists_stop`).
-/
import NamedLambda.Proofs.Nameless.Standard

namespace NamedLambda

namespace Nameless

/-! ### The search -/

/-- The contraction of a term that is a redex. -/
def contract : Nameless → Option Nameless
  | app (abs b) a => some (b.instantiate a)
  | _ => none

/-- Contract the first redex when a node comes before its parts.  The search enters bodies if
`bodies` says so, and arguments if `arguments` does. -/
def outermostStep (bodies arguments : Bool) : Nameless → Option Nameless
  | bound _ => none
  | free _ => none
  | abs b => if bodies then (b.outermostStep bodies arguments).map abs else none
  | app f a =>
      ((contract (app f a)).or ((f.outermostStep bodies arguments).map (app · a))).or
        (if arguments then (a.outermostStep bodies arguments).map (app f) else none)

/-- Any number of steps of the search. -/
abbrev Outermost (bodies arguments : Bool) : Nameless → Nameless → Prop :=
  Relation.ReflTransGen fun t u => t.outermostStep bodies arguments = some u

variable {bodies arguments : Bool}

theorem contract_app_eq_none_iff {f a : Nameless} :
    contract (app f a) = none ↔ f.isAbs = false := by
  cases f <;> simp [contract, isAbs]

theorem outermostStep_app_eq_none_iff {f a : Nameless} :
    (app f a).outermostStep bodies arguments = none ↔
      f.isAbs = false ∧ f.outermostStep bodies arguments = none ∧
        (arguments = true → a.outermostStep bodies arguments = none) := by
  rw [outermostStep, Option.or_eq_none_iff, Option.or_eq_none_iff, contract_app_eq_none_iff,
    Option.map_eq_none_iff, and_assoc]
  cases arguments <;> simp

/-- In an application whose operator is no abstraction, the operator has its turn first. -/
theorem outermostStep_app_left {f f' : Nameless} (hf : f.isAbs = false)
    (h : f.outermostStep bodies arguments = some f') (a : Nameless) :
    (app f a).outermostStep bodies arguments = some (app f' a) := by
  rw [outermostStep, contract_app_eq_none_iff.2 hf, h]
  rfl

/-- The argument has its turn when there is nothing left to do in the operator. -/
theorem outermostStep_app_right {f a a' : Nameless} (hf : f.isAbs = false)
    (hstop : f.outermostStep bodies true = none) (h : a.outermostStep bodies true = some a') :
    (app f a).outermostStep bodies true = some (app f a') := by
  rw [outermostStep, contract_app_eq_none_iff.2 hf, hstop, h]
  rfl

/-- The search finds the weak head redex, whatever its region. -/
theorem WeakHead.outermostStep {t u : Nameless} (h : WeakHead t u) :
    t.outermostStep bodies arguments = some u := by
  induction h with
  | contract b a => rfl
  | @app f f' a hw ih =>
      refine outermostStep_app_left ?_ ih a
      cases hw <;> rfl

/-- A step of the search makes no abstraction disappear. -/
theorem isAbs_of_outermostStep {t u : Nameless} (h : t.outermostStep bodies arguments = some u)
    (ht : t.isAbs = true) : u.isAbs = true := by
  obtain ⟨b, rfl⟩ := isAbs_iff.1 ht
  rw [outermostStep] at h
  split at h
  · obtain ⟨b', -, rfl⟩ := Option.map_eq_some_iff.1 h
    rfl
  · cases h

/-! ### Steps inside a term -/

theorem Outermost.abs {b b' : Nameless} (h : Outermost true arguments b b') :
    Outermost true arguments (abs b) (abs b') := by
  refine h.lift Nameless.abs fun t u htu => ?_
  show (Nameless.abs t).outermostStep true arguments = some (Nameless.abs u)
  rw [outermostStep, if_pos rfl, htu]
  rfl

theorem Outermost.isAbs {t u : Nameless} (h : Outermost bodies arguments t u)
    (ht : t.isAbs = true) : u.isAbs = true := by
  induction h with
  | refl => exact ht
  | tail _ hstep ih => exact isAbs_of_outermostStep hstep ih

/-- The steps of an operator are steps of the application as long as no abstraction comes about. -/
theorem Outermost.appLeft {f f' : Nameless} (h : Outermost bodies arguments f f')
    (hf' : f'.isAbs = false) (a : Nameless) :
    Outermost bodies arguments (app f a) (app f' a) := by
  induction h using Relation.ReflTransGen.head_induction_on with
  | refl => exact .refl
  | @head f g hstep hrest ih =>
      -- If `f` were an abstraction, all that comes after it would be one.
      have hf : f.isAbs = false := by
        rw [← Bool.not_eq_true]
        intro hf
        have hf'' := Outermost.isAbs (hrest.head hstep) hf
        rw [hf'] at hf''
        cases hf''
      exact .head (outermostStep_app_left hf hstep a) ih

theorem Outermost.appRight {f a a' : Nameless} (hf : f.isAbs = false)
    (hstop : f.outermostStep bodies true = none) (h : Outermost bodies true a a') :
    Outermost bodies true (app f a) (app f a') :=
  h.lift (app f) fun _ _ => outermostStep_app_right hf hstop

/-! ### Coming to a stop -/

theorem Standard.isAbs {t u : Nameless} (h : Standard t u) (ht : t.isAbs = true) :
    u.isAbs = true := by
  cases h with
  | abs _ => rfl
  | head hw _ => cases hw <;> cases ht
  | _ => cases ht

/-- **The search comes to a stop** on every term with a standard reduction to a stopping form, in a
term from which the rest of that reduction is standard, too. -/
theorem Standard.exists_stop {t n : Nameless} (h : Standard t n)
    (hn : n.outermostStep bodies arguments = none) :
    ∃ u, Outermost bodies arguments t u ∧ u.outermostStep bodies arguments = none ∧
      Standard u n := by
  induction h with
  | bound i => exact ⟨Nameless.bound i, .refl, rfl, .bound i⟩
  | free x => exact ⟨Nameless.free x, .refl, rfl, .free x⟩
  | @abs b b' hb ih =>
      cases bodies with
      | false => exact ⟨Nameless.abs b, .refl, rfl, .abs hb⟩
      | true =>
          obtain ⟨u, hbu, hu, hub⟩ := ih (Option.map_eq_none_iff.1 hn)
          exact ⟨Nameless.abs u, hbu.abs, Option.map_eq_none_iff.2 hu, .abs hub⟩
  | @app f f' a a' _ ha ihf iha =>
      obtain ⟨hf', hfn, han⟩ := outermostStep_app_eq_none_iff.1 hn
      obtain ⟨g, hfg, hg, hgf⟩ := ihf hfn
      -- The operator stops short of an abstraction, for otherwise `f'` would be one.
      have hgabs : g.isAbs = false := by
        rw [← Bool.not_eq_true]
        intro hgabs
        have := hgf.isAbs hgabs
        rw [hf'] at this
        cases this
      have hleft : Outermost bodies arguments (Nameless.app f a) (Nameless.app g a) :=
        hfg.appLeft hgabs a
      cases arguments with
      | false =>
          refine ⟨Nameless.app g a, hleft, ?_, .app hgf ha⟩
          exact outermostStep_app_eq_none_iff.2 ⟨hgabs, hg, fun h => by cases h⟩
      | true =>
          -- Now that the operator is done, the argument has its turn.
          obtain ⟨c, hac, hc, hca⟩ := iha (han rfl)
          refine ⟨Nameless.app g c, hleft.trans (Outermost.appRight hgabs hg hac), ?_, .app hgf hca⟩
          exact outermostStep_app_eq_none_iff.2 ⟨hgabs, hg, fun _ => hc⟩
  | head hw _ ih =>
      obtain ⟨u, htu, hu, hun⟩ := ih hn
      exact ⟨u, .head hw.outermostStep htu, hu, hun⟩

end Nameless

end NamedLambda
