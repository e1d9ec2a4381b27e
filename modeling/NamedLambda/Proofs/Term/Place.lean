/-
NamedLambda/Proofs/Term/Place.lean

Places in a term, and the orders in which a search comes to them.

A place is the way that leads to it: at an application on to the operator or to the argument, at an
abstraction on to the body.  The parts of a node have their turn in this order, and the orders of
the places differ only in when the node itself has its turn: in preorder before its parts, in
postorder after them.  Of two places exactly one comes first (`SearchOrder.Before.asymm`), so there
is at most one first redex in any region (`IsFirstRedex.unique`).

A search works its way up from the parts of a term.  `Finds` says what it has to find in a term and
a region, and the lemmas after it say how what is found in a term is made of what is found in its
parts, one lemma for each kind of node, whatever the region is.  The order matters only in how the
root is put in with the parts (`Finds.preorder`, `Finds.postorder`).
-/
import Mathlib.Data.List.Basic
import NamedLambda.Term.Substitution

namespace NamedLambda

/-! ### Places -/

/-- A part of a node. -/
inductive Direction where
  | operator
  | argument
  | body
deriving DecidableEq, Repr

/-- The way from the root of a term to one of its nodes. -/
abbrev Place := List Direction

/-- When a node has its turn: before its parts, or after them. -/
inductive SearchOrder where
  | preorder
  | postorder
deriving DecidableEq, Repr

/-- The turn that a part has among the parts of its node. -/
def Direction.turn : Direction → Nat
  | operator => 0
  | argument => 1
  | body => 2

/-- Whether the first place has its turn before the second one. -/
def SearchOrder.Before (order : SearchOrder) : Place → Place → Prop
  | [], [] => False
  | [], _ :: _ => order = preorder
  | _ :: _, [] => order = postorder
  | d :: p, e :: q => d.turn < e.turn ∨ d = e ∧ order.Before p q

theorem SearchOrder.Before.asymm {order : SearchOrder} {p q : Place} (h : order.Before p q) :
    ¬ order.Before q p := by
  induction p generalizing q with
  | nil =>
      cases q with
      | nil => exact absurd h id
      | cons e q =>
          intro h'
          cases h.symm.trans h'
  | cons d p ih =>
      cases q with
      | nil =>
          intro h'
          cases h.symm.trans h'
      | cons e q =>
          rintro (h' | ⟨rfl, h'⟩)
          · rcases h with h | ⟨rfl, -⟩
            · exact Nat.lt_asymm h h'
            · exact Nat.lt_irrefl _ h'
          · rcases h with h | ⟨-, h⟩
            · exact Nat.lt_irrefl _ h
            · exact ih h h'

/-- Places that go on from the same part keep their order. -/
theorem SearchOrder.eq_or_before_cons {order : SearchOrder} {p q : Place} (d : Direction)
    (h : q = p ∨ order.Before p q) : d :: q = d :: p ∨ order.Before (d :: p) (d :: q) := by
  rcases h with rfl | h
  · exact Or.inl rfl
  · exact Or.inr (Or.inr ⟨rfl, h⟩)

namespace Term

/-! ### Subterms -/

/-- The subterm at a place. -/
def subtermAt : Term → Place → Option Term
  | t, [] => some t
  | app f _, .operator :: p => f.subtermAt p
  | app _ a, .argument :: p => a.subtermAt p
  | abs _ b, .body :: p => b.subtermAt p
  | _, _ :: _ => none

/-- The term with another subterm at a place. -/
def replaceAt : Term → Place → Term → Term
  | _, [], r => r
  | app f a, .operator :: p, r => app (f.replaceAt p r) a
  | app f a, .argument :: p, r => app f (a.replaceAt p r)
  | abs x b, .body :: p, r => abs x (b.replaceAt p r)
  | t, _ :: _, _ => t

/-- The contraction of the redex at a place, if there is one. -/
def contractionAt (t : Term) (p : Place) : Option Term :=
  (t.subtermAt p).bind contract

@[simp] theorem subtermAt_nil (t : Term) : t.subtermAt [] = some t := by
  cases t <;> rfl

@[simp] theorem replaceAt_nil (t r : Term) : t.replaceAt [] r = r := by
  cases t <;> rfl

@[simp] theorem contractionAt_nil (t : Term) : t.contractionAt [] = t.contract := by
  rw [contractionAt, subtermAt_nil, Option.bind_some]

@[simp] theorem contractionAt_var (x : Name) (p : Place) : (var x).contractionAt p = none := by
  rcases p with - | ⟨- | - | -, p⟩ <;> rfl

theorem contractionAt_eq_some_iff {t : Term} {p : Place} {c : Term} :
    t.contractionAt p = some c ↔ ∃ r, t.subtermAt p = some r ∧ r.contract = some c :=
  Option.bind_eq_some_iff

/-- What is neither on the way to a place nor below it does not change with it. -/
theorem subtermAt_replaceAt_of_not_prefix {t r : Term} {p q : Place} (hpq : ¬ p <+: q)
    (hqp : ¬ q <+: p) : (t.replaceAt p r).subtermAt q = t.subtermAt q := by
  induction p generalizing t q with
  | nil => exact absurd List.nil_prefix hpq
  | cons d p ih =>
      rcases q with - | ⟨e, q⟩
      · exact absurd List.nil_prefix hqp
      by_cases hde : d = e
      · subst hde
        rw [List.prefix_cons_inj] at hpq hqp
        cases t <;> cases d
        case app.operator => exact ih hpq hqp
        case app.argument => exact ih hpq hqp
        case abs.body => exact ih hpq hqp
        all_goals rfl
      · -- The ways part at this node.
        cases t <;> cases d <;> cases e <;> simp_all [replaceAt, subtermAt]

/-! ### Searches -/

/-- The first place of a region, in the given order, at which the term has a redex. -/
structure IsFirstRedex (order : SearchOrder) (region : Place → Prop) (t : Term) (p : Place) :
    Prop where
  inRegion : region p
  isRedex : (t.contractionAt p).isSome
  first : ∀ q, region q → (t.contractionAt q).isSome → q = p ∨ order.Before p q

theorem IsFirstRedex.unique {order : SearchOrder} {region : Place → Prop} {t : Term}
    {p q : Place} (hp : IsFirstRedex order region t p) (hq : IsFirstRedex order region t q) :
    p = q := by
  rcases hp.first q hq.inRegion hq.isRedex with rfl | hpq
  · rfl
  · rcases hq.first p hp.inRegion hp.isRedex with rfl | hqp
    · rfl
    · exact absurd hqp hpq.asymm

/-- What a search in a region has to give: the term with its first redex contracted, or nothing if
there is no redex. -/
def Finds (order : SearchOrder) (region : Place → Prop) (t : Term) : Option Term → Prop
  | none => ∀ p, region p → t.contractionAt p = none
  | some u => ∃ p c, IsFirstRedex order region t p ∧ t.contractionAt p = some c ∧
      u = t.replaceAt p c

namespace Finds

variable {order : SearchOrder} {region region' : Place → Prop} {t : Term} {o : Option Term}

/-- Only the places of redexes matter. -/
theorem congr (h : ∀ p, (t.contractionAt p).isSome → (region p ↔ region' p))
    (ho : Finds order region t o) : Finds order region' t o := by
  rcases o with - | u
  · intro p hp
    rcases hc : t.contractionAt p with - | c
    · rfl
    · have hsome : (t.contractionAt p).isSome := by rw [hc]; rfl
      exact absurd ((ho p ((h p hsome).2 hp)).symm.trans hc) (by simp)
  · obtain ⟨p, c, hp, hc, hu⟩ := ho
    refine ⟨p, c, ⟨(h p hp.isRedex).1 hp.inRegion, hp.isRedex, ?_⟩, hc, hu⟩
    intro q hq hredex
    exact hp.first q ((h q hredex).2 hq) hredex

theorem of_empty (h : ∀ p, ¬ region p) : Finds order region t none :=
  fun p hp => absurd hp (h p)

/-- Where there is a redex, a search does not come back with nothing. -/
theorem exists_of_redex (h : Finds order region t o) {p : Place} {c : Term} (hp : region p)
    (hc : t.contractionAt p = some c) : ∃ u, o = some u := by
  rcases o with - | u
  · cases (h p hp).symm.trans hc
  · exact ⟨u, rfl⟩

/-! #### The parts of a node -/

theorem var (x : Name) : Finds order region (Term.var x) none :=
  fun p _ => contractionAt_var x p

/-- A search in an abstraction is a search in its body. -/
theorem abs {x : Name} {b : Term} (h : Finds order (fun p => region (.body :: p)) b o) :
    Finds order region (Term.abs x b) (o.map (Term.abs x)) := by
  rcases o with - | b'
  · rintro (- | ⟨- | - | -, p⟩) hp
    case cons.body => exact h p hp
    all_goals rfl
  · obtain ⟨p, c, hp, hc, rfl⟩ := h
    refine ⟨.body :: p, c, ⟨hp.inRegion, hp.isRedex, ?_⟩, hc, rfl⟩
    rintro (- | ⟨- | - | -, q⟩) hq hredex
    case cons.body => exact SearchOrder.eq_or_before_cons .body (hp.first q hq hredex)
    all_goals cases hredex

/-- Below the root of an application, the operator is searched before the argument. -/
theorem app {f a : Term} {of oa : Option Term}
    (hf : Finds order (fun p => region (.operator :: p)) f of)
    (ha : Finds order (fun p => region (.argument :: p)) a oa) :
    Finds order (fun p => p ≠ [] ∧ region p) (Term.app f a)
      ((of.map (Term.app · a)).or (oa.map (Term.app f))) := by
  rcases of with - | f'
  · rcases oa with - | a'
    · rintro (- | ⟨- | - | -, p⟩) ⟨hne, hp⟩
      · exact absurd rfl hne
      · exact hf p hp
      · exact ha p hp
      · rfl
    · obtain ⟨p, c, hp, hc, rfl⟩ := ha
      refine ⟨.argument :: p, c, ⟨⟨by simp, hp.inRegion⟩, hp.isRedex, ?_⟩, hc, rfl⟩
      rintro (- | ⟨- | - | -, q⟩) ⟨hne, hq⟩ hredex
      · exact absurd rfl hne
      · -- The operator has no redex.
        have hnone : f.contractionAt q = none := hf q hq
        have hsome : (f.contractionAt q).isSome := hredex
        rw [hnone] at hsome
        cases hsome
      · exact SearchOrder.eq_or_before_cons .argument (hp.first q hq hredex)
      · cases hredex
  · obtain ⟨p, c, hp, hc, rfl⟩ := hf
    refine ⟨.operator :: p, c, ⟨⟨by simp, hp.inRegion⟩, hp.isRedex, ?_⟩, hc, rfl⟩
    rintro (- | ⟨- | - | -, q⟩) ⟨hne, hq⟩ hredex
    · exact absurd rfl hne
    · exact SearchOrder.eq_or_before_cons .operator (hp.first q hq hredex)
    · exact Or.inr (Or.inl Nat.zero_lt_one)
    · cases hredex

/-! #### The root -/

/-- In preorder the root comes before the rest. -/
theorem preorder (hroot : region []) (h : Finds .preorder (fun p => p ≠ [] ∧ region p) t o) :
    Finds .preorder region t (t.contract.or o) := by
  rcases hc : t.contract with - | c
  · rw [Option.none_or]
    refine h.congr fun p hredex => and_iff_right ?_
    rintro rfl
    simp [hc] at hredex
  · refine ⟨[], c, ⟨hroot, ?_, ?_⟩, ?_, (replaceAt_nil t c).symm⟩
    · simp [hc]
    · rintro (- | ⟨d, q⟩) _ _
      · exact Or.inl rfl
      · exact Or.inr rfl
    · rw [contractionAt_nil, hc]

/-- In postorder the root comes after the rest. -/
theorem postorder (hroot : region []) (h : Finds .postorder (fun p => p ≠ [] ∧ region p) t o) :
    Finds .postorder region t (o.or t.contract) := by
  rcases o with - | u
  · rw [Option.none_or]
    rcases hc : t.contract with - | c
    · rintro (- | ⟨d, p⟩) hp
      · rw [contractionAt_nil, hc]
      · exact h (d :: p) ⟨by simp, hp⟩
    · refine ⟨[], c, ⟨hroot, ?_, ?_⟩, ?_, (replaceAt_nil t c).symm⟩
      · simp [hc]
      · rintro (- | ⟨d, q⟩) hq hredex
        · exact Or.inl rfl
        · rw [h (d :: q) ⟨by simp, hq⟩] at hredex
          cases hredex
      · rw [contractionAt_nil, hc]
  · obtain ⟨p, c, hp, hc, hu⟩ := h
    refine ⟨p, c, ⟨hp.inRegion.2, hp.isRedex, ?_⟩, hc, hu⟩
    rintro (- | ⟨d, q⟩) hq hredex
    · rcases p with - | ⟨e, p⟩
      · exact absurd rfl hp.inRegion.1
      · exact Or.inr rfl
    · exact hp.first (d :: q) ⟨by simp, hq⟩ hredex

end Finds

end Term

end NamedLambda
