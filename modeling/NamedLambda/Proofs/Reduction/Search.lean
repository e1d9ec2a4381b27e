/-
NamedLambda/Proofs/Reduction/Search.lean

What the searches for a redex can find.  Each search tries places in some order, so on an
application its result is that of the first alternative that has one; the equations of the first
section say so, and the rest follows from them.

Main facts: `Strategy.step_beta` says that every step of every strategy contracts a redex, and
`Strategy.step_eq_none_iff_normal` that the deep strategies stop at the normal terms and nowhere
else.
-/
import NamedLambda.Proofs.Term.Beta
import NamedLambda.Reduction.Strategy

namespace NamedLambda

namespace Term

/-! ### The order of the alternatives -/

theorem outermostStep_app (bodies arguments : Bool) (f a : Term) :
    (app f a).outermostStep bodies arguments =
      ((app f a).contract.or ((f.outermostStep bodies arguments).map (app · a))).or
        (if arguments then (a.outermostStep bodies arguments).map (app f) else none) := by
  rw [outermostStep]
  rcases (app f a).contract with - | u
  · rcases f.outermostStep bodies arguments with - | f' <;> rfl
  · rfl

theorem outermostStep_of_contract {t u : Term} (h : t.contract = some u)
    (bodies arguments : Bool) : t.outermostStep bodies arguments = some u := by
  obtain ⟨x, b, a, rfl, rfl⟩ := contract_eq_some_iff.1 h
  rfl

theorem contract_app_eq_none_iff {f a : Term} : (app f a).contract = none ↔ f.isAbs = false := by
  cases f <;> simp [contract, isAbs]

/-- A search that enters bodies goes on in the body of an abstraction. -/
theorem outermostStep_abs {arguments : Bool} {b b' : Term}
    (h : b.outermostStep true arguments = some b') (x : Name) :
    (abs x b).outermostStep true arguments = some (abs x b') :=
  congrArg (Option.map (abs x)) h

/-- An operator that is no abstraction is searched first. -/
theorem outermostStep_app_left {bodies arguments : Bool} {f f' : Term} (hf : f.isAbs = false)
    (h : f.outermostStep bodies arguments = some f') (a : Term) :
    (app f a).outermostStep bodies arguments = some (app f' a) := by
  rw [outermostStep, contract_app_eq_none_iff.2 hf, h]

/-- Where it has nothing to contract, the argument is searched. -/
theorem outermostStep_app_right {bodies : Bool} {f a a' : Term} (hf : f.isAbs = false)
    (hstop : f.outermostStep bodies true = none) (h : a.outermostStep bodies true = some a') :
    (app f a).outermostStep bodies true = some (app f a') := by
  rw [outermostStep, contract_app_eq_none_iff.2 hf, hstop, h]
  rfl

theorem innermostStep_app (bodies : Bool) (f a : Term) :
    (app f a).innermostStep bodies =
      (((f.innermostStep bodies).map (app · a)).or ((a.innermostStep bodies).map (app f))).or
        (app f a).contract := by
  rw [innermostStep]
  rcases f.innermostStep bodies with - | f'
  · rcases a.innermostStep bodies with - | a' <;> rfl
  · rfl

theorem spineStep_eq (t : Term) : t.spineStep = t.headStep.or t.argumentStep := by
  rw [spineStep]
  rcases t.headStep with - | u <;> rfl

theorem argumentStep_app (f a : Term) :
    (app f a).argumentStep =
      (f.argumentStep.map (app · a)).or (a.spineStep.map (app f)) := by
  rw [argumentStep, spineStep_eq]
  rcases f.argumentStep with - | f'
  · rcases a.headStep with - | a' <;> rfl
  · rfl

/-! ### Steps contract redexes -/

theorem outermostStep_beta {bodies arguments : Bool} {t u : Term}
    (h : t.outermostStep bodies arguments = some u) : t.Beta u := by
  induction t generalizing u with
  | var x => cases h
  | abs x b ih =>
      rw [outermostStep] at h
      split at h
      · obtain ⟨b', hb, rfl⟩ := Option.map_eq_some_iff.1 h
        exact .abs x (ih hb)
      · cases h
  | app f a ihf iha =>
      rw [outermostStep_app, Option.or_eq_some_iff, Option.or_eq_some_iff] at h
      rcases h with (hc | ⟨-, hf⟩) | ⟨-, ha⟩
      · exact .contract hc
      · obtain ⟨f', hf', rfl⟩ := Option.map_eq_some_iff.1 hf
        exact .appLeft a (ihf hf')
      · split at ha
        · obtain ⟨a', ha', rfl⟩ := Option.map_eq_some_iff.1 ha
          exact .appRight f (iha ha')
        · cases ha

theorem innermostStep_beta {bodies : Bool} {t u : Term}
    (h : t.innermostStep bodies = some u) : t.Beta u := by
  induction t generalizing u with
  | var x => cases h
  | abs x b ih =>
      rw [innermostStep] at h
      split at h
      · obtain ⟨b', hb, rfl⟩ := Option.map_eq_some_iff.1 h
        exact .abs x (ih hb)
      · cases h
  | app f a ihf iha =>
      rw [innermostStep_app, Option.or_eq_some_iff, Option.or_eq_some_iff] at h
      rcases h with (hf | ⟨-, ha⟩) | ⟨-, hc⟩
      · obtain ⟨f', hf', rfl⟩ := Option.map_eq_some_iff.1 hf
        exact .appLeft a (ihf hf')
      · obtain ⟨a', ha', rfl⟩ := Option.map_eq_some_iff.1 ha
        exact .appRight f (iha ha')
      · exact .contract hc

theorem argumentStep_beta {t u : Term} (h : t.argumentStep = some u) : t.Beta u := by
  induction t generalizing u with
  | var x => cases h
  | abs x b ih =>
      rw [argumentStep] at h
      obtain ⟨b', hb, rfl⟩ := Option.map_eq_some_iff.1 h
      exact .abs x (ih hb)
  | app f a ihf iha =>
      rw [argumentStep_app, Option.or_eq_some_iff] at h
      rcases h with hf | ⟨-, ha⟩
      · obtain ⟨f', hf', rfl⟩ := Option.map_eq_some_iff.1 hf
        exact .appLeft a (ihf hf')
      · obtain ⟨a', ha', rfl⟩ := Option.map_eq_some_iff.1 ha
        rw [spineStep_eq, Option.or_eq_some_iff] at ha'
        rcases ha' with hhead | ⟨-, hargs⟩
        · exact .appRight f (outermostStep_beta hhead)
        · exact .appRight f (iha hargs)

theorem spineStep_beta {t u : Term} (h : t.spineStep = some u) : t.Beta u := by
  rw [spineStep_eq, Option.or_eq_some_iff] at h
  rcases h with hhead | ⟨-, hargs⟩
  · exact outermostStep_beta hhead
  · exact argumentStep_beta hargs

/-! ### Searches that go everywhere -/

theorem normal_of_outermostStep_eq_none {t : Term} (h : t.outermostStep true true = none) :
    t.Normal := by
  induction t with
  | var x => exact normal_var x
  | abs x b ih => exact normal_abs_iff.2 (ih (Option.map_eq_none_iff.1 h))
  | app f a ihf iha =>
      rw [outermostStep_app, Option.or_eq_none_iff, Option.or_eq_none_iff, if_pos rfl,
        Option.map_eq_none_iff, Option.map_eq_none_iff] at h
      obtain ⟨⟨hc, hf⟩, ha⟩ := h
      exact normal_app_iff.2 ⟨hc, ihf hf, iha ha⟩

theorem normal_of_innermostStep_eq_none {t : Term} (h : t.innermostStep true = none) :
    t.Normal := by
  induction t with
  | var x => exact normal_var x
  | abs x b ih => exact normal_abs_iff.2 (ih (Option.map_eq_none_iff.1 h))
  | app f a ihf iha =>
      rw [innermostStep_app, Option.or_eq_none_iff, Option.or_eq_none_iff,
        Option.map_eq_none_iff, Option.map_eq_none_iff] at h
      obtain ⟨⟨hf, ha⟩, hc⟩ := h
      exact normal_app_iff.2 ⟨hc, ihf hf, iha ha⟩

/-- Where the head has no redex, the search through the arguments covers the rest. -/
theorem normal_of_spineStep_eq_none {t : Term} (h : t.spineStep = none) : t.Normal := by
  rw [spineStep_eq, Option.or_eq_none_iff] at h
  obtain ⟨hhead, hargs⟩ := h
  -- The induction is on both passes at once: in an argument, the second pass makes both.
  induction t with
  | var x => exact normal_var x
  | abs x b ih =>
      exact normal_abs_iff.2 (ih (Option.map_eq_none_iff.1 hhead) (Option.map_eq_none_iff.1 hargs))
  | app f a ihf iha =>
      rw [headStep, outermostStep_app, Option.or_eq_none_iff, Option.or_eq_none_iff,
        Option.map_eq_none_iff] at hhead
      rw [argumentStep_app, Option.or_eq_none_iff, Option.map_eq_none_iff,
        Option.map_eq_none_iff, spineStep_eq, Option.or_eq_none_iff] at hargs
      obtain ⟨⟨hc, hf⟩, -⟩ := hhead
      obtain ⟨hfa, hah, haa⟩ := hargs
      exact normal_app_iff.2 ⟨hc, ihf hf hfa, iha hah haa⟩

end Term

namespace Strategy

/-- **Every step of a strategy contracts a redex.** -/
theorem step_beta {s : Strategy} {t u : Term} (h : s.step t = some u) : t.Beta u := by
  cases s with
  | callByValue => exact Term.innermostStep_beta h
  | callByName => exact Term.outermostStep_beta h
  | normalOrder deep => exact Term.outermostStep_beta h
  | applicativeOrder deep => exact Term.innermostStep_beta h
  | headSpine deep =>
      cases deep with
      | false => exact Term.outermostStep_beta h
      | true => exact Term.spineStep_beta h

/-- Whether a strategy goes on to the normal form. -/
def isDeep : Strategy → Bool
  | callByValue => false
  | callByName => false
  | normalOrder deep => deep
  | applicativeOrder deep => deep
  | headSpine deep => deep

theorem step_eq_none_of_normal (s : Strategy) {t : Term} (h : t.Normal) : s.step t = none := by
  rcases hs : s.step t with - | u
  · rfl
  · exact absurd (step_beta hs) (h u)

/-- **The deep strategies stop at normal terms only.** -/
theorem step_eq_none_iff_normal {s : Strategy} (hs : s.isDeep) {t : Term} :
    s.step t = none ↔ t.Normal := by
  refine ⟨fun h => ?_, s.step_eq_none_of_normal⟩
  cases s with
  | callByValue => cases hs
  | callByName => cases hs
  | normalOrder deep =>
      obtain rfl : deep = true := hs
      exact Term.normal_of_outermostStep_eq_none h
  | applicativeOrder deep =>
      obtain rfl : deep = true := hs
      exact Term.normal_of_innermostStep_eq_none h
  | headSpine deep =>
      obtain rfl : deep = true := hs
      exact Term.normal_of_spineStep_eq_none h

end Strategy

end NamedLambda
