/-
NamedLambda/Proofs/Reduction/FirstRedex.lean

Which redex a strategy contracts.

Each strategy has a region, given by the ways on which it goes down a term, and contracts the first
redex of the region in preorder or in postorder.  For a search that enters the same parts of every
node this is proved along the term.  The region of the shallow head spine is narrower than its
search: the ways in it go through bodies first and through operators after them, whereas the search
would enter the body of an operator, too.  It never does, for an operator with a body belongs to a
redex, which comes before (`headStep_app`).  The deep head spine has two passes and no order of its
own; what it contracts is known from normal order.

Main result: `step_eq_some_iff_firstRedex`.
-/
import NamedLambda.Proofs.Reduction.Comparison
import NamedLambda.Proofs.Term.Place

namespace NamedLambda

/-! ### Regions -/

/-- Whether a search with these parameters enters a part of a node. -/
def Direction.entered (bodies arguments : Bool) : Direction → Bool
  | operator => true
  | argument => arguments
  | body => bodies

/-- The region of a search: the ways through parts that it enters. -/
def Within (bodies arguments : Bool) (p : Place) : Prop :=
  ∀ d ∈ p, d.entered bodies arguments

theorem within_nil (bodies arguments : Bool) : Within bodies arguments [] := by
  simp [Within]

theorem within_cons_iff {bodies arguments : Bool} {d : Direction}
    (h : d.entered bodies arguments = true) {p : Place} :
    Within bodies arguments p ↔ Within bodies arguments (d :: p) := by
  simp [Within, h]

theorem not_within_cons {bodies arguments : Bool} {d : Direction}
    (h : d.entered bodies arguments = false) (p : Place) : ¬ Within bodies arguments (d :: p) := by
  simp [Within, h]

/-- The ways through bodies first and through operators after them. -/
def HeadPath (p : Place) : Prop :=
  ∃ m n, p = List.replicate m .body ++ List.replicate n .operator

theorem headPath_body_cons {p : Place} : HeadPath (.body :: p) ↔ HeadPath p := by
  constructor
  · rintro ⟨m, n, h⟩
    rcases m with - | m
    · rcases n with - | n <;> simp [List.replicate_succ] at h
    · rw [List.replicate_succ, List.cons_append, List.cons.injEq] at h
      exact ⟨m, n, h.2⟩
  · rintro ⟨m, n, rfl⟩
    exact ⟨m + 1, n, rfl⟩

/-- A way that does not begin with a body is one through operators. -/
theorem headPath_iff_within {p : Place} (h : p.head? ≠ some .body) :
    HeadPath p ↔ Within false false p := by
  constructor
  · rintro ⟨m, n, rfl⟩
    rcases m with - | m
    · intro d hd
      obtain rfl := List.eq_of_mem_replicate hd
      rfl
    · exact absurd rfl h
  · intro hp
    refine ⟨0, p.length, ?_⟩
    show p = List.replicate p.length .operator
    refine List.eq_replicate_of_mem fun d hd => ?_
    cases d with
    | operator => rfl
    | _ => cases hp _ hd

namespace Term

/-! ### The searches -/

theorem outermostStep_finds (bodies arguments : Bool) (t : Term) :
    Finds .preorder (Within bodies arguments) t (t.outermostStep bodies arguments) := by
  induction t with
  | var x => exact .var x
  | abs x b ih =>
      rw [outermostStep]
      cases bodies with
      | true => exact .abs (ih.congr fun _ _ => within_cons_iff rfl)
      | false => exact .abs (.of_empty (not_within_cons rfl))
  | app f a ihf iha =>
      have hf : Finds .preorder (fun p => Within bodies arguments (.operator :: p)) f
          (f.outermostStep bodies arguments) :=
        ihf.congr fun _ _ => within_cons_iff rfl
      have ha : Finds .preorder (fun p => Within bodies arguments (.argument :: p)) a
          (if arguments then a.outermostStep bodies arguments else none) := by
        cases arguments with
        | true => exact iha.congr fun _ _ => within_cons_iff rfl
        | false => exact .of_empty (not_within_cons rfl)
      have hmap : (if arguments then (a.outermostStep bodies arguments).map (app f) else none) =
          (if arguments then a.outermostStep bodies arguments else none).map (app f) := by
        cases arguments <;> rfl
      rw [outermostStep_app, Option.or_assoc, hmap]
      exact .preorder (within_nil _ _) (.app hf ha)

theorem innermostStep_finds (bodies : Bool) (t : Term) :
    Finds .postorder (Within bodies true) t (t.innermostStep bodies) := by
  induction t with
  | var x => exact .var x
  | abs x b ih =>
      rw [innermostStep]
      cases bodies with
      | true => exact .abs (ih.congr fun _ _ => within_cons_iff rfl)
      | false => exact .abs (.of_empty (not_within_cons rfl))
  | app f a ihf iha =>
      have hf : Finds .postorder (fun p => Within bodies true (.operator :: p)) f
          (f.innermostStep bodies) :=
        ihf.congr fun _ _ => within_cons_iff rfl
      have ha : Finds .postorder (fun p => Within bodies true (.argument :: p)) a
          (a.innermostStep bodies) :=
        iha.congr fun _ _ => within_cons_iff rfl
      rw [innermostStep_app]
      exact .postorder (within_nil _ _) (.app hf ha)

/-! ### The head -/

/-- In an application the head is found without entering bodies. -/
theorem headStep_app (f a : Term) : (app f a).headStep = (app f a).outermostStep false false := by
  induction f generalizing a with
  | var x => rfl
  | abs x b _ => rfl
  | app g c ihg _ =>
      have h : (app g c).outermostStep true false = (app g c).outermostStep false false := ihg c
      rw [headStep, outermostStep_app, h, outermostStep_app false false (app g c) a]
      rfl

theorem headStep_finds (t : Term) : Finds .preorder HeadPath t t.headStep := by
  induction t with
  | var x => exact .var x
  | abs x b ih => exact .abs (ih.congr fun p _ => headPath_body_cons.symm)
  | app f a _ _ =>
      rw [headStep_app]
      refine (outermostStep_finds false false (app f a)).congr fun p hredex => ?_
      refine (headPath_iff_within ?_).symm
      -- An application has no body.
      rintro hbody
      obtain ⟨q, rfl⟩ := List.head?_eq_some_iff.1 hbody
      cases hredex

end Term

namespace Strategy

/-! ### The strategies -/

/-- The order in which a strategy searches. -/
def order : Strategy → SearchOrder
  | callByValue => .postorder
  | callByName => .preorder
  | normalOrder _ => .preorder
  | applicativeOrder _ => .postorder
  | headSpine _ => .preorder

/-- Where a strategy looks for a redex. -/
def Region : Strategy → Place → Prop
  | callByName, p => ∀ d ∈ p, d = .operator
  | callByValue, p => .body ∉ p
  | normalOrder false, p => .body ∉ p
  | applicativeOrder false, p => .body ∉ p
  | headSpine false, p => HeadPath p
  | normalOrder true, _ => True
  | applicativeOrder true, _ => True
  | headSpine true, _ => True

theorem within_operators_iff {p : Place} :
    Within false false p ↔ ∀ d ∈ p, d = Direction.operator :=
  forall₂_congr fun d _ => by cases d <;> simp [Direction.entered]

theorem within_shallow_iff {p : Place} : Within false true p ↔ Direction.body ∉ p := by
  constructor
  · intro h hbody
    cases h _ hbody
  · intro h d hd
    cases d with
    | body => exact absurd hd h
    | _ => rfl

theorem within_everywhere (p : Place) : Within true true p :=
  fun d _ => by cases d <;> rfl

/-- A step of a strategy is what a search in its order and region has to find. -/
theorem finds_step (s : Strategy) (t : Term) : Term.Finds s.order s.Region t (s.step t) := by
  cases s with
  | callByValue => exact (t.innermostStep_finds false).congr fun _ _ => within_shallow_iff
  | callByName => exact (t.outermostStep_finds false false).congr fun _ _ => within_operators_iff
  | normalOrder deep =>
      cases deep with
      | false => exact (t.outermostStep_finds false true).congr fun _ _ => within_shallow_iff
      | true => exact (t.outermostStep_finds true true).congr fun p _ =>
          iff_true_intro (within_everywhere p)
  | applicativeOrder deep =>
      cases deep with
      | false => exact (t.innermostStep_finds false).congr fun _ _ => within_shallow_iff
      | true => exact (t.innermostStep_finds true).congr fun p _ =>
          iff_true_intro (within_everywhere p)
  | headSpine deep =>
      cases deep with
      | false => exact t.headStep_finds
      | true =>
          rw [step_headSpine_deep]
          exact (t.outermostStep_finds true true).congr fun p _ =>
            iff_true_intro (within_everywhere p)

/-- **A step contracts the first redex.**  A strategy has a step exactly if there is a redex in its
region.  The step contracts the redex at that place of the region that comes first in the order of
the strategy, and leaves all subterms alone that do not lie on the way to this place or below it. -/
theorem step_eq_some_iff_firstRedex (s : Strategy) (t : Term) :
    ((∃ u, s.step t = some u) ↔
        ∃ p r c, s.Region p ∧ t.subtermAt p = some r ∧ r.contract = some c) ∧
      ∀ u, s.step t = some u ↔
        ∃ p r c, Term.IsFirstRedex s.order s.Region t p ∧
          t.subtermAt p = some r ∧ r.contract = some c ∧ u = t.replaceAt p c ∧
            ∀ q, ¬ p <+: q → ¬ q <+: p → u.subtermAt q = t.subtermAt q := by
  have hfinds := finds_step s t
  constructor
  · constructor
    · rintro ⟨u, hu⟩
      rw [hu] at hfinds
      obtain ⟨p, c, hp, hc, -⟩ := hfinds
      obtain ⟨r, hr, hc⟩ := Term.contractionAt_eq_some_iff.1 hc
      exact ⟨p, r, c, hp.inRegion, hr, hc⟩
    · rintro ⟨p, r, c, hp, hr, hc⟩
      exact hfinds.exists_of_redex hp (Term.contractionAt_eq_some_iff.2 ⟨r, hr, hc⟩)
  · intro u
    constructor
    · intro hu
      rw [hu] at hfinds
      obtain ⟨p, c, hp, hc, rfl⟩ := hfinds
      obtain ⟨r, hr, hc⟩ := Term.contractionAt_eq_some_iff.1 hc
      exact ⟨p, r, c, hp, hr, hc, rfl, fun q => Term.subtermAt_replaceAt_of_not_prefix⟩
    · rintro ⟨p, r, c, hp, hr, hc, rfl, -⟩
      have hredex : t.contractionAt p = some c := Term.contractionAt_eq_some_iff.2 ⟨r, hr, hc⟩
      obtain ⟨v, hv⟩ := hfinds.exists_of_redex hp.inRegion hredex
      rw [hv] at hfinds ⊢
      obtain ⟨p', c', hp', hc', rfl⟩ := hfinds
      -- What the step contracts is a first redex as well, and there is only one.
      obtain rfl := hp.unique hp'
      obtain rfl := Option.some.inj (hredex.symm.trans hc')
      rfl

end Strategy

end NamedLambda
