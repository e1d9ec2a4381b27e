/-
NamedLambda/Proofs/Session/Application.lean

A definition acts like an abstraction that is applied.

To define `x` by `d` and then to reduce `t` is the same as to reduce the application of the
abstraction of `x` in `t` to `d`, up to bound names and up to the one step that contracts this
application.  The two ways to the common result have nothing in common but their values: the first
contraction instantiates the body with what the argument denotes (`contract_resolve_app`), and that
is the value that the definition gives to the name.

Main result: `define_alphaEq_application`.
-/
import NamedLambda.Proofs.Environment.Define
import NamedLambda.Proofs.Invariance
import NamedLambda.Proofs.Reduction.Budget
import NamedLambda.Proofs.Session.Sequencing

namespace NamedLambda

open Term

/-! ### The first step -/

namespace Environment

/-- An application of an abstraction is contracted, once it is resolved, to the body resolved after
the argument has been made the definition of the parameter. -/
theorem contract_resolve_app (env : Environment) (x : Name) (d t : Term) :
    ∃ u, (env.resolve (app (abs x t) d)).contract = some u ∧
      u.nameless = ((env.define x d).resolve t).nameless := by
  let application := env.resolve (app (abs x t) d)
  have hforms : application.contract.map (denote Nameless.free) =
      (application.denote Nameless.free).contract :=
    map_contract_denote application Valuation.atomic_free
  have happlication : application.denote Nameless.free =
      .app (.abs (t.denote (env.value.bind x))) (d.denote env.value) := by
    rw [← nameless_eq_denote, nameless_resolve, denote, denote]
  rw [happlication] at hforms
  obtain ⟨u, hu, hvalue⟩ := Option.map_eq_some_iff.1 hforms
  refine ⟨u, hu, ?_⟩
  rw [nameless_eq_denote, hvalue, denote_bind_instantiate, nameless_resolve, value_define]

end Environment

/-! ### Reduction -/

namespace Strategy

/-- Equal terms have equal results under every budget. -/
theorem exists_reduce_congr (s : Strategy) {t u : Term} (h : t.nameless = u.nameless)
    {budget : Nat} {r : Term} (hr : s.reduce budget t = .ok r) :
    ∃ r', s.reduce budget u = .ok r' ∧ r'.alphaEq r := by
  rcases s.reduce_sameOutcome budget h with ⟨a, b, ha, hb, hab⟩ | ⟨e, he, -⟩
  · obtain rfl := Except.ok.inj (ha.symm.trans hr)
    exact ⟨b, hb, alphaEq_iff.2 (alphaEq_iff.1 hab).symm⟩
  · rw [he] at hr
    cases hr

variable {s : Strategy} {t u v : Term}

/-- If the first step leads to a term that is equal to `v`, every result is one of `v` as well. -/
theorem exists_reduce_of_step (h : s.step t = some u) (huv : u.nameless = v.nameless)
    {budget : Nat} {r : Term} (hr : s.reduce (budget + 1) t = .ok r) :
    ∃ r', s.reduce budget v = .ok r' ∧ r'.alphaEq r := by
  obtain ⟨-, hu⟩ := (reduce_succ_eq_ok_iff h).1 hr
  exact exists_reduce_congr s huv hu

/-- Every result of `v` is one of `t` unless the first step leaves the limits. -/
theorem exists_reduce_or_error_of_step (h : s.step t = some u) (huv : u.nameless = v.nameless)
    {budget : Nat} {r : Term} (hr : s.reduce budget v = .ok r) :
    (∃ r', s.reduce (budget + 1) t = .ok r' ∧ r'.alphaEq r) ∨
      u.withinLimits = false ∧ s.reduce (budget + 1) t = .error ⟨s, 1⟩ := by
  cases hu : u.withinLimits with
  | false => exact Or.inr ⟨rfl, reduce_succ_of_not_withinLimits h hu budget⟩
  | true =>
      obtain ⟨r', hr', hrr⟩ := exists_reduce_congr s huv.symm hr
      exact Or.inl ⟨r', (reduce_succ_eq_ok_iff h).2 ⟨hu, hr'⟩, hrr⟩

/-- Under one budget for both, the term that takes the first step has its results later. -/
theorem exists_reduce_or_spent_of_step (h : s.step t = some u) (huv : u.nameless = v.nameless)
    {budget : Nat} {r : Term} (hr : s.reduce budget v = .ok r) :
    (∃ r', s.reduce budget t = .ok r' ∧ r'.alphaEq r) ∨
      ∃ k, s.reduce budget t = .error ⟨s, k⟩ ∧
        (k = budget ∨ k = 1 ∧ u.withinLimits = false) := by
  rcases exists_reduce_or_error_of_step h huv hr with ⟨r', hr', hrr⟩ | ⟨hlim, -⟩
  · rcases reduce_eq_ok_or_spent budget hr' with hok | hspent
    · exact Or.inl ⟨r', hok, hrr⟩
    · exact Or.inr ⟨budget, hspent, Or.inl rfl⟩
  · right
    cases budget with
    | zero => exact ⟨0, reduce_zero_of_step h, Or.inl rfl⟩
    | succ budget => exact ⟨1, reduce_succ_of_not_withinLimits h hlim budget, Or.inr ⟨rfl, hlim⟩⟩

end Strategy

/-! ### Lines of a session -/

namespace Session

section Replies

variable {session : Session} {line : String} {x : Name} {d t r : Term} {e : Divergence}

theorem reply_evaluate_ok (h : parseCommands line = .ok [.evaluate t])
    (hr : (session.environment.resolve t).normalForm session.budget = .ok r) :
    (session.handle line).2 = .printing [r.toSource] := by
  rw [handle_of_parseCommands h, executeAll, execute, hr]
  rfl

theorem reply_evaluate_error (h : parseCommands line = .ok [.evaluate t])
    (he : (session.environment.resolve t).normalForm session.budget = .error e) :
    (session.handle line).2 = .failing (.evaluation (.divergence e)) := by
  rw [handle_of_parseCommands h, executeAll, execute, he]

theorem reply_define_evaluate_ok (h : parseCommands line = .ok [.define x d, .evaluate t])
    (hr : ((session.environment.define x d).resolve t).normalForm session.budget = .ok r) :
    (session.handle line).2 =
      .printing [definitionLine x (session.environment.resolve d), r.toSource] := by
  rw [handle_of_parseCommands h, executeAll, execute]
  simp only [executeAll, execute, hr]
  rfl

theorem reply_define_evaluate_error (h : parseCommands line = .ok [.define x d, .evaluate t])
    (he : ((session.environment.define x d).resolve t).normalForm session.budget = .error e) :
    (session.handle line).2.failure = some (.evaluation (.divergence e)) := by
  rw [handle_of_parseCommands h, executeAll, execute]
  simp only [executeAll, execute, he]
  rfl

/-- A term that is evaluated is printed in its normal form, if anything is printed. -/
theorem exists_of_reply_evaluate {lines : List String}
    (h : parseCommands line = .ok [.evaluate t])
    (hlines : (session.handle line).2 = .printing lines) :
    ∃ r, (session.environment.resolve t).normalForm session.budget = .ok r ∧
      lines = [r.toSource] := by
  rcases hr : (session.environment.resolve t).normalForm session.budget with e | r
  · have hfailing := reply_evaluate_error h hr
    rw [hlines] at hfailing
    cases hfailing
  · have hprinting := reply_evaluate_ok h hr
    rw [hlines] at hprinting
    cases hprinting
    exact ⟨r, rfl, rfl⟩

theorem exists_of_reply_define_evaluate {lines : List String}
    (h : parseCommands line = .ok [.define x d, .evaluate t])
    (hlines : (session.handle line).2 = .printing lines) :
    ∃ r, ((session.environment.define x d).resolve t).normalForm session.budget = .ok r ∧
      lines = [definitionLine x (session.environment.resolve d), r.toSource] := by
  rcases hr : ((session.environment.define x d).resolve t).normalForm session.budget with e | r
  · have hfailing := reply_define_evaluate_error h hr
    rw [hlines] at hfailing
    cases hfailing
  · have hprinting := reply_define_evaluate_ok h hr
    rw [hlines] at hprinting
    cases hprinting
    exact ⟨r, rfl, rfl⟩

end Replies

end Session

/-! ### Definition and application -/

/-- **To define a name is to apply an abstraction.**  Let `application` be that of the abstraction
of `x` in `t` to `d`, resolved, and `body` what `t` is resolved to once `x` is defined by `d`.  If
the application has a normal form under a budget of one step more, the body has an equal one, and
conversely, unless the contraction of the application is outside the limits, which is found at the
first step.  So when both are written as lines of one session and the application has a result, the
definition has an equal one; and when the definition has a result, so has the application, unless
its contraction is outside the limits or the budget is one step short. -/
theorem define_alphaEq_application (env : Environment) (x : Name) (d t : Term) :
    let s := Strategy.normalOrder true
    let application := env.resolve (app (abs x t) d)
    let body := (env.define x d).resolve t
    (∀ budget r, s.reduce (budget + 1) application = .ok r →
      ∃ r', s.reduce budget body = .ok r' ∧ r'.alphaEq r) ∧
    (∀ budget r', s.reduce budget body = .ok r' →
      (∃ r, s.reduce (budget + 1) application = .ok r ∧ r.alphaEq r') ∨
        (∃ u, application.contract = some u ∧ u.withinLimits = false) ∧
          s.reduce (budget + 1) application = .error ⟨s, 1⟩) ∧
    ∀ (budget : Nat) (p q : String), parseCommands p = .ok [.define x d, .evaluate t] →
      parseCommands q = .ok [.evaluate (app (abs x t) d)] →
      let session : Session := ⟨env, budget⟩
      let definition := Session.definitionLine x (env.resolve d)
      (∀ lines, (session.handle q).2 = .printing lines →
        ∃ r r' : Term, lines = [r.toSource] ∧
          (session.handle p).2 = .printing [definition, r'.toSource] ∧ r'.alphaEq r) ∧
      ∀ lines, (session.handle p).2 = .printing lines →
        ∃ r' : Term, lines = [definition, r'.toSource] ∧
          ((∃ r : Term, (session.handle q).2 = .printing [r.toSource] ∧ r.alphaEq r') ∨
            ∃ k, (session.handle q).2 = .failing (.evaluation (.divergence ⟨s, k⟩)) ∧
              (k = budget ∨
                k = 1 ∧ ∃ u, application.contract = some u ∧ u.withinLimits = false)) := by
  intro s application body
  obtain ⟨u, hu, hequal⟩ := env.contract_resolve_app x d t
  have hstep : s.step application = some u := outermostStep_of_contract hu true true
  refine ⟨?_, ?_, ?_⟩
  · intro budget r hr
    exact Strategy.exists_reduce_of_step hstep hequal hr
  · intro budget r' hr'
    rcases Strategy.exists_reduce_or_error_of_step hstep hequal hr' with h | ⟨hlim, h⟩
    · exact Or.inl h
    · exact Or.inr ⟨⟨u, hu, hlim⟩, h⟩
  intro budget p q hp hq session definition
  constructor
  · intro lines hlines
    obtain ⟨r, hr, rfl⟩ := Session.exists_of_reply_evaluate hq hlines
    -- The line of the definition has the whole budget left, where one step less is enough.
    have hmore : s.reduce (budget + 1) application = .ok r :=
      Strategy.reduce_mono (Nat.le_succ budget) hr
    obtain ⟨r', hr', hrr⟩ := Strategy.exists_reduce_of_step hstep hequal hmore
    exact ⟨r, r', rfl, Session.reply_define_evaluate_ok hp hr', hrr⟩
  · intro lines hlines
    obtain ⟨r', hr', rfl⟩ := Session.exists_of_reply_define_evaluate hp hlines
    refine ⟨r', rfl, ?_⟩
    rcases Strategy.exists_reduce_or_spent_of_step hstep hequal hr' with
      ⟨r, hr, hrr⟩ | ⟨k, hk, hwhy⟩
    · exact Or.inl ⟨r, Session.reply_evaluate_ok hq hr, hrr⟩
    · refine Or.inr ⟨k, Session.reply_evaluate_error hq hk, ?_⟩
      rcases hwhy with hspent | ⟨hone, hlim⟩
      · exact Or.inl hspent
      · exact Or.inr ⟨hone, u, hu, hlim⟩

/-- The binder in the body would capture the definition of `y`.  Both ways rename it, and only one
of them spends a step. -/
theorem define_alphaEq_application_renamed :
    let s := Strategy.normalOrder true
    let env := (∅ : Environment).define "y" (var "z")
    let t := abs "z" (app (var "x") (var "z"))
    let r := abs "z1" (app (var "z") (var "z1"))
    let session : Session := ⟨env, 4⟩
    (s.reduce 1 (env.resolve (app (abs "x" t) (var "y"))) = .ok r ∧
      ∃ r', s.reduce 0 ((env.define "x" (var "y")).resolve t) = .ok r' ∧ r'.alphaEq r) ∧
    (session.handle "(\\x.\\z.x z) y").2 = .printing ["\\z1.z z1"] ∧
      ∃ r r' : Term, ["\\z1.z z1"] = [r.toSource] ∧
        (session.handle "x = y; \\z.x z").2 = .printing ["x = z", r'.toSource] ∧ r'.alphaEq r := by
  intro s env t r session
  obtain ⟨hforth, -, hlines⟩ := define_alphaEq_application env "x" (var "y") t
  have hr : s.reduce (0 + 1) (env.resolve (app (abs "x" t) (var "y"))) = .ok r := by
    decide +kernel
  have hp : parseCommands "x = y; \\z.x z" = .ok [.define "x" (var "y"), .evaluate t] := by
    decide +kernel
  have hq : parseCommands "(\\x.\\z.x z) y" = .ok [.evaluate (app (abs "x" t) (var "y"))] := by
    decide +kernel
  have hprinted : (session.handle "(\\x.\\z.x z) y").2 = .printing ["\\z1.z z1"] := by
    decide +kernel
  have hline : Session.definitionLine "x" (env.resolve (var "y")) = "x = z" := by decide +kernel
  obtain ⟨happlied, -⟩ := hlines 4 _ _ hp hq
  have hdefined := happlied _ hprinted
  rw [hline] at hdefined
  exact ⟨⟨hr, hforth 0 r hr⟩, hprinted, hdefined⟩

end NamedLambda
