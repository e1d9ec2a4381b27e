/-
NamedLambda/Proofs/Term/Replacement.lean

When a substitution renames a binder.

Textual replacement puts a term for the free occurrences of a name and keeps every binder as it is,
capture or not.  A substitution does the same unless a binder between the root and a free occurrence
of the name (`BindsAround`) captures a variable of the replacement.  Such a binder is renamed, and
the two results differ in its name.  So the condition is exact (`substitute_eq_replace_iff`), and no
binder is renamed without need.

The renaming branch substitutes in a body that is not a subterm, but in this branch the names of the
binders differ already and nothing is left to compare.  Everywhere else both functions follow the
term, and so does the induction.

Main result: `substitute_renames_only_captures`.
-/
import NamedLambda.Proofs.Term.FreeVariables
import NamedLambda.Proofs.Term.Place

namespace NamedLambda

namespace Term

/-! ### Textual replacement -/

/-- The term with `r` put for every free occurrence of `x`, all binders kept. -/
def replace (t : Term) (x : Name) (r : Term) : Term :=
  match t with
  | var y => if y = x then r else var y
  | abs y b => if y = x then abs y b else abs y (b.replace x r)
  | app f a => app (f.replace x r) (a.replace x r)

/-- A variable put for itself changes nothing. -/
theorem replace_self (x : Name) (t : Term) : t.replace x (var x) = t := by
  induction t with
  | var y =>
      rw [replace]
      split
      · next h => rw [h]
      · rfl
  | abs y b ih => rw [replace, ih, ite_self]
  | app f a ihf iha => rw [replace, ihf, iha]

/-! ### Binders around an occurrence -/

/-- `BindsAround x y t`: in `t` a binder of `y` stands around a free occurrence of `x`.  The binders
of `x` itself are none of these, nor is any binder below them. -/
inductive BindsAround (x y : Name) : Term → Prop
  | here {b : Term} : y ≠ x → b.occursFree x → BindsAround x y (abs y b)
  | body {z : Name} {b : Term} : z ≠ x → BindsAround x y b → BindsAround x y (abs z b)
  | operator {f : Term} (a : Term) : BindsAround x y f → BindsAround x y (app f a)
  | argument (f : Term) {a : Term} : BindsAround x y a → BindsAround x y (app f a)

variable {x y z : Name} {t r b f a : Term}

theorem bindsAround_abs_iff :
    BindsAround x y (abs z b) ↔ z ≠ x ∧ (y = z ∧ b.occursFree x ∨ BindsAround x y b) := by
  constructor
  · rintro (⟨hne, hb⟩ | ⟨hne, hb⟩)
    · exact ⟨hne, Or.inl ⟨rfl, hb⟩⟩
    · exact ⟨hne, Or.inr hb⟩
  · rintro ⟨hne, ⟨rfl, hb⟩ | hb⟩
    · exact .here hne hb
    · exact .body hne hb

theorem bindsAround_app_iff :
    BindsAround x y (app f a) ↔ BindsAround x y f ∨ BindsAround x y a := by
  constructor
  · rintro (- | - | ⟨-, hf⟩ | ⟨-, ha⟩)
    · exact Or.inl hf
    · exact Or.inr ha
  · rintro (hf | ha)
    · exact .operator a hf
    · exact .argument f ha

/-- Such a binder is that of an abstraction in whose body `x` occurs free. -/
theorem BindsAround.exists_subtermAt (h : BindsAround x y t) :
    ∃ p b, t.subtermAt p = some (abs y b) ∧ y ≠ x ∧ b.occursFree x := by
  induction h with
  | @here b hne hb => exact ⟨[], b, subtermAt_nil _, hne, hb⟩
  | body _ _ ih =>
      obtain ⟨p, c, hp, hc⟩ := ih
      exact ⟨.body :: p, c, hp, hc⟩
  | operator _ _ ih =>
      obtain ⟨p, c, hp, hc⟩ := ih
      exact ⟨.operator :: p, c, hp, hc⟩
  | argument _ _ ih =>
      obtain ⟨p, c, hp, hc⟩ := ih
      exact ⟨.argument :: p, c, hp, hc⟩

/-! ### Substitution without renaming -/

/-- A renamed binder has not kept its name. -/
theorem freshBinder_ne (h : r.occursFree y) : freshBinder y b r ≠ y := by
  intro hfresh
  have hr := freshBinder_not_occursFree_replacement y b r
  rw [hfresh] at hr
  exact hr h

/-- **A substitution keeps all binders exactly if none of them captures**: it is textual replacement
if and only if no binder around a free occurrence of the name binds a variable of the
replacement. -/
theorem substitute_eq_replace_iff :
    t.substitute x r = t.replace x r ↔ ∀ y, BindsAround x y t → ¬ r.occursFree y := by
  induction t with
  | var z =>
      rw [substitute_var, replace]
      refine iff_of_true rfl ?_
      rintro y ⟨⟩
  | abs z b ih =>
      rw [substitute_abs, replace]
      by_cases hzx : z = x
      · rw [if_pos hzx, if_pos hzx]
        refine iff_of_true rfl fun y hy => ?_
        exact absurd hzx (bindsAround_abs_iff.1 hy).1
      rw [if_neg hzx, if_neg hzx]
      by_cases hcap : r.occursFree z ∧ b.occursFree x
      · -- The binder is renamed, and it is one of those that capture.
        rw [if_pos (by simpa using hcap)]
        refine iff_of_false ?_ fun h => h z (.here hzx hcap.2) hcap.1
        rw [abs.injEq]
        exact fun h => freshBinder_ne hcap.1 h.1
      · rw [if_neg (by simpa using hcap), abs.injEq, ih]
        refine (and_iff_right rfl).trans (forall_congr' fun y => ?_)
        rw [bindsAround_abs_iff]
        constructor
        · rintro h ⟨-, ⟨rfl, hb⟩ | hy⟩
          · exact fun hr => hcap ⟨hr, hb⟩
          · exact h hy
        · exact fun h hy => h ⟨hzx, Or.inr hy⟩
  | app f a ihf iha =>
      rw [substitute_app, replace, app.injEq, ihf, iha]
      simp only [bindsAround_app_iff, or_imp, forall_and]

/-- **A substitution renames only what it must.**  It is textual replacement exactly if no binder
around a free occurrence of the name binds a variable of the replacement.  In particular it is if no
abstraction at all with such an occurrence in its body does, or if the replacement is closed, and a
variable put for itself changes nothing. -/
theorem substitute_renames_only_captures (t : Term) (x : Name) (r : Term) :
    (t.substitute x r = t.replace x r ↔ ∀ y, BindsAround x y t → ¬ r.occursFree y) ∧
      ((∀ p y b, t.subtermAt p = some (abs y b) → y ≠ x → b.occursFree x → ¬ r.occursFree y) →
        t.substitute x r = t.replace x r) ∧
      (r.freeVariables = ∅ → t.substitute x r = t.replace x r) ∧
      t.substitute x (var x) = t := by
  refine ⟨substitute_eq_replace_iff, ?_, ?_, ?_⟩
  · intro h
    refine substitute_eq_replace_iff.2 fun y hy => ?_
    obtain ⟨p, b, hp, hne, hb⟩ := hy.exists_subtermAt
    exact h p y b hp hne hb
  · intro hclosed
    refine substitute_eq_replace_iff.2 fun y _ hr => ?_
    rw [← mem_freeVariables, hclosed] at hr
    exact NameSet.not_mem_empty hr
  · have hkept : ∀ y, BindsAround x y t → ¬ (var x).occursFree y := by
      intro y hy hr
      obtain ⟨-, -, -, hne, -⟩ := hy.exists_subtermAt
      exact hne (occursFree_var.1 hr).symm
    rw [substitute_eq_replace_iff.2 hkept, replace_self]

/-- A binder of a variable of the replacement is kept if no occurrence is below it, and a name that
is bound in the replacement is no reason to rename another binder of it. -/
theorem substitute_renames_only_captures_beside :
    let t := abs "y" (app (var "x") (abs "z" (var "z")))
    let r := var "z"
    let i := abs "y" (var "y")
    (∀ p y b, t.subtermAt p = some (abs y b) → y ≠ "x" → b.occursFree "x" → ¬ r.occursFree y) ∧
      t.substitute "x" r = abs "y" (app r (abs "z" (var "z"))) ∧
      i.freeVariables = ∅ ∧ t.substitute "x" i = abs "y" (app i (abs "z" (var "z"))) := by
  intro t r i
  have hkept : ∀ p y b, t.subtermAt p = some (abs y b) → y ≠ "x" → b.occursFree "x" →
      ¬ r.occursFree y := by
    rintro p y b hp - hb
    rcases p with - | ⟨- | - | -, - | ⟨- | - | -, - | ⟨- | - | -, - | ⟨_, _⟩⟩⟩⟩ <;>
      simp [t, subtermAt] at hp
    case nil =>
      obtain ⟨rfl, -⟩ := hp
      decide
    case cons.body.cons.argument.nil =>
      obtain ⟨-, rfl⟩ := hp
      exact absurd hb (by decide)
  have hclosed : i.freeVariables = ∅ := by decide
  obtain ⟨-, hopen, -⟩ := substitute_renames_only_captures t "x" r
  obtain ⟨-, -, hi, -⟩ := substitute_renames_only_captures t "x" i
  exact ⟨hkept, (hopen hkept).trans (by decide), hclosed, (hi hclosed).trans (by decide)⟩

end Term

end NamedLambda
