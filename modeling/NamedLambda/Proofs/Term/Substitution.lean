/-
NamedLambda/Proofs/Term/Substitution.lean

Substitution avoids capture.

The renaming branch goes on in a body that is not a subterm, so `sizeInduction` is the induction to
use: for an abstraction, everything of the size of its body may be assumed.  By this induction
`denote_substitute` says that a substitution gives the name the value of the replacement, under any
valuation.  That the new binder is fresh is needed in one place, where the values of the free
variables of body and replacement have to be the same inside the renamed binder as before.

The calls that a substitution makes are the derivations of `Substitution`, and `substitution_iff`
says in which result they end.  The main result, `substitute_avoids_capture`, puts the two together
for nameless forms.
-/
import NamedLambda.Proofs.Name.Fresh
import NamedLambda.Proofs.Term.Denotation
import NamedLambda.Term.Substitution

namespace NamedLambda

namespace Term

open Nameless NamedLambda.Valuation

/-! ### Induction on the size -/

/-- To prove something of all terms, it may be assumed of every term of the size of a body. -/
@[elab_as_elim] theorem sizeInduction {P : Term → Prop} (var : ∀ x, P (var x))
    (abs : ∀ x b, (∀ c : Term, c.size = b.size → P c) → P (abs x b))
    (app : ∀ f a, P f → P a → P (app f a)) (t : Term) : P t := by
  suffices h : ∀ n, ∀ t : Term, t.size = n → P t from h t.size t rfl
  intro n
  induction n using Nat.strongRecOn with
  | _ n ih =>
      intro t ht
      cases t with
      | var x => exact var x
      | abs x b =>
          refine abs x b fun c hc => ih b.size ?_ c hc
          rw [← ht, size]
          exact Nat.lt_succ_self b.size
      | app f a =>
          rw [size] at ht
          exact app f a (ih f.size (by omega) f rfl) (ih a.size (by omega) a rfl)

/-- Putting a variable for a variable keeps the size. -/
theorem size_substitute_var (t : Term) (x y : Name) : (t.substitute x (var y)).size = t.size :=
  (t.substituteSized x (var y)).property rfl

/-! ### The name of a renamed binder -/

theorem freshBinder_not_occursFree_body (y : Name) (b r : Term) :
    ¬ b.occursFree (freshBinder y b r) := by
  intro h
  refine Name.fresh_not_mem y (b.freeVariables ∪ r.freeVariables) ?_
  exact NameSet.mem_union.2 (Or.inl (mem_freeVariables.2 h))

theorem freshBinder_not_occursFree_replacement (y : Name) (b r : Term) :
    ¬ r.occursFree (freshBinder y b r) := by
  intro h
  refine Name.fresh_not_mem y (b.freeVariables ∪ r.freeVariables) ?_
  exact NameSet.mem_union.2 (Or.inr (mem_freeVariables.2 h))

/-! ### What a substitution denotes -/

/-- A body under a renamed binder.  Inside, the old name stands for the new binder and `x` for the
replacement, so outside the binder `x` has the value of the replacement, as intended. -/
theorem denote_renamed (b r : Term) (ρ : Valuation) {x : Name} (y : Name)
    (hx : b.occursFree x) :
    let z := freshBinder y b r
    let ρz := Function.update (ρ.bind z) x (r.denote (ρ.bind z))
    b.denote (Function.update ρz y (ρz z)) =
      b.denote (Valuation.bind (Function.update ρ x (r.denote ρ)) y) := by
  intro z ρz
  have hzb : ¬ b.occursFree z := freshBinder_not_occursFree_body y b r
  have hzr : ¬ r.occursFree z := freshBinder_not_occursFree_replacement y b r
  have hzx : z ≠ x := fun e => hzb (e ▸ hx)
  refine denote_congr fun w hw => ?_
  by_cases hwy : w = y
  · rw [hwy, Function.update_self, bind_self]
    show Function.update (ρ.bind z) x _ z = bound 0
    rw [Function.update_of_ne hzx, bind_self]
  · rw [Function.update_of_ne hwy, bind_of_ne _ hwy]
    show Function.update (ρ.bind z) x _ w = _
    by_cases hwx : w = x
    · -- The new binder does not capture a variable of the replacement.
      rw [hwx, Function.update_self, Function.update_self]
      exact denote_bind_of_not_occursFree hzr ρ
    · -- Nor any other variable of the body.
      have hwz : w ≠ z := fun e => hzb (e ▸ hw)
      rw [Function.update_of_ne hwx, Function.update_of_ne hwx, bind_of_ne ρ hwz]

/-- A body under a binder that stays.  The binder captures no variable of the replacement, unless
there is nothing to replace. -/
theorem denote_kept (b r : Term) (ρ : Valuation) {x y : Name} (hyx : y ≠ x)
    (h : ¬ (r.occursFree y ∧ b.occursFree x)) :
    b.denote (Function.update (ρ.bind y) x (r.denote (ρ.bind y))) =
      b.denote (Valuation.bind (Function.update ρ x (r.denote ρ)) y) := by
  refine denote_congr fun w hw => ?_
  by_cases hwx : w = x
  · subst hwx
    have hyr : ¬ r.occursFree y := fun hr => h ⟨hr, hw⟩
    rw [Function.update_self, bind_of_ne _ (Ne.symm hyx), Function.update_self]
    exact denote_bind_of_not_occursFree hyr ρ
  · rw [Function.update_of_ne hwx]
    by_cases hwy : w = y
    · rw [hwy, bind_self, bind_self]
    · rw [bind_of_ne ρ hwy, bind_of_ne _ hwy, Function.update_of_ne hwx]

/-- A shadowed name has no value in the body. -/
theorem bind_update_self (ρ : Valuation) (x : Name) (v : Nameless) :
    Valuation.bind (Function.update ρ x v) x = ρ.bind x := by
  funext w
  by_cases hw : w = x
  · rw [hw, bind_self, bind_self]
  · rw [bind_of_ne _ hw, bind_of_ne _ hw, Function.update_of_ne hw]

/-- **Substitution gives a name the value of the replacement**, whatever the other names stand
for. -/
theorem denote_substitute (t : Term) (x : Name) (r : Term) (ρ : Valuation) :
    (t.substitute x r).denote ρ = t.denote (Function.update ρ x (r.denote ρ)) := by
  induction t using sizeInduction generalizing x r ρ with
  | var y =>
      rw [substitute_var]
      by_cases h : y = x
      · rw [if_pos h, denote, h, Function.update_self]
      · rw [if_neg h, denote, denote, Function.update_of_ne h]
  | app f a ihf iha => rw [substitute_app, denote, denote, ihf, iha]
  | abs y b ih =>
      rw [substitute_abs]
      by_cases hyx : y = x
      · subst hyx
        rw [if_pos rfl, denote, denote, bind_update_self]
      · rw [if_neg hyx]
        by_cases hcap : r.occursFree y ∧ b.occursFree x
        · -- The binder is renamed, and both substitutions are in a term of the size of the body.
          rw [if_pos (by simpa using hcap), denote, denote,
            ih _ (size_substitute_var b y _), ih b rfl]
          congr 1
          exact denote_renamed b r ρ y hcap.2
        · rw [if_neg (by simpa using hcap), denote, denote, ih b rfl]
          congr 1
          exact denote_kept b r ρ hyx hcap

/-! ### The calls of a substitution -/

/-- `Substitution t x r u`: substituting `r` for `x` in `t` comes to an end, with the result `u`.
A derivation is the tree of the calls that are made, one rule for each branch that a call can
take. -/
inductive Substitution : Term → Name → Term → Term → Prop
  | hit (x : Name) (r : Term) : Substitution (var x) x r r
  | miss {x y : Name} (r : Term) : y ≠ x → Substitution (var y) x r (var y)
  | app {f a f' a' : Term} {x : Name} {r : Term} :
      Substitution f x r f' → Substitution a x r a' → Substitution (app f a) x r (app f' a')
  | shadowed (x : Name) (b r : Term) : Substitution (abs x b) x r (abs x b)
  | renamed {x y : Name} {b r b' c : Term} : y ≠ x → r.occursFree y → b.occursFree x →
      Substitution b y (var (freshBinder y b r)) b' → Substitution b' x r c →
      Substitution (abs y b) x r (abs (freshBinder y b r) c)
  | kept {x y : Name} {b r c : Term} : y ≠ x → ¬ (r.occursFree y ∧ b.occursFree x) →
      Substitution b x r c → Substitution (abs y b) x r (abs y c)

theorem substitution_substitute (t : Term) (x : Name) (r : Term) :
    Substitution t x r (t.substitute x r) := by
  induction t using sizeInduction generalizing x r with
  | var y =>
      rw [substitute_var]
      by_cases h : y = x
      · rw [if_pos h, h]
        exact .hit x r
      · rw [if_neg h]
        exact .miss r h
  | app f a ihf iha =>
      rw [substitute_app]
      exact .app (ihf x r) (iha x r)
  | abs y b ih =>
      rw [substitute_abs]
      by_cases hyx : y = x
      · rw [if_pos hyx, hyx]
        exact .shadowed x b r
      · rw [if_neg hyx]
        by_cases hcap : r.occursFree y ∧ b.occursFree x
        · rw [if_pos (by simpa using hcap)]
          exact .renamed hyx hcap.1 hcap.2 (ih b rfl y _) (ih _ (size_substitute_var b y _) x r)
        · rw [if_neg (by simpa using hcap)]
          exact .kept hyx hcap (ih b rfl x r)

theorem Substitution.eq_substitute {t : Term} {x : Name} {r u : Term}
    (h : Substitution t x r u) : u = t.substitute x r := by
  induction h with
  | hit x r => rw [substitute_var, if_pos rfl]
  | miss r hne => rw [substitute_var, if_neg hne]
  | app _ _ ihf iha => rw [substitute_app, ← ihf, ← iha]
  | shadowed x b r => rw [substitute_abs, if_pos rfl]
  | renamed hne hr hb _ _ ihb ihc =>
      rw [substitute_abs, if_neg hne, if_pos (by simp [hr, hb]), ← ihb, ← ihc]
  | kept hne hcap _ ih => rw [substitute_abs, if_neg hne, if_neg (by simpa using hcap), ← ih]

/-- The calls of a substitution end in `u` exactly if `u` is the result of the substitution. -/
theorem substitution_iff {t : Term} {x : Name} {r u : Term} :
    Substitution t x r u ↔ u = t.substitute x r :=
  ⟨Substitution.eq_substitute, fun h => h ▸ substitution_substitute t x r⟩

/-! ### The nameless form -/

theorem nameless_substitute (t : Term) (x : Name) (r : Term) :
    (t.substitute x r).nameless = t.denote (Function.update free x r.nameless) := by
  rw [nameless_eq_denote, nameless_eq_denote, denote_substitute]

/-- **Substitution avoids capture and replaces exactly the free occurrences.**  Its calls come to an
end, in one result, for every term, name and replacement.  The nameless form of the result is that
of the term with the nameless form of the replacement, which is closed, at each free occurrence of
the name, and nothing else changed. -/
theorem substitute_avoids_capture (t : Term) (x : Name) (r : Term) :
    (∃! u, Substitution t x r u) ∧ Substitution t x r (t.substitute x r) ∧
      r.nameless.ClosedUnder 0 ∧
      (t.substitute x r).nameless =
        t.nameless.replaceFree fun y => if y = x then r.nameless else free y := by
  refine ⟨⟨_, substitution_substitute t x r, fun u hu => substitution_iff.1 hu⟩,
    substitution_substitute t x r, closedUnder_nameless r, ?_⟩
  have hclosed : ∀ y, (if y = x then r.nameless else free y).ClosedUnder 0 := by
    intro y
    split
    · exact closedUnder_nameless r
    · trivial
  rw [nameless_substitute, replaceFree_nameless t hclosed]
  congr 1
  funext y
  exact Function.update_apply free x r.nameless y

end Term

end NamedLambda
