/-
NamedLambda/Proofs/Environment/Resolve.lean

Resolving a term is one simultaneous substitution.

Substitutions made one after the other act on the values of names from the last to the first: each
sees what those after it have made of the values (`denote_foldl_substitute`).  If the names are
different and none of them occurs in what is put in, the order makes no difference, and every name
gets the value of its own replacement (`Independent`).  Both rounds of resolving are of this kind.
In the first one that is so because a placeholder is none of the free names of the term, in the
second one because it is none of the free names of the definitions.

Main facts: `nameless_resolve` says what a resolved term denotes, and `resolve_simultaneous` says the
same of the nameless form of the term.
-/
import NamedLambda.Environment
import NamedLambda.Proofs.Term.Substitution

namespace NamedLambda

open Nameless (free)

/-! ### Substitutions in a row -/

namespace Term

section Row

variable {α : Type} (name : α → Name) (replacement : α → Term)

/-- The values of the names before a row of substitutions, given the values after it. -/
def before : List α → Valuation → Valuation
  | [], ρ => ρ
  | d :: ds, ρ =>
      Function.update (before ds ρ) (name d) ((replacement d).denote (before ds ρ))

/-- A row of substitutions changes what the names stand for. -/
theorem denote_foldl_substitute (ds : List α) (t : Term) (ρ : Valuation) :
    (ds.foldl (fun u d => u.substitute (name d) (replacement d)) t).denote ρ =
      t.denote (before name replacement ds ρ) := by
  induction ds generalizing t with
  | nil => rfl
  | cons d ds ih => rw [List.foldl_cons, ih, denote_substitute, before]

/-- The names of a row are different, and no replacement mentions one of them. -/
structure Independent (ds : List α) : Prop where
  nodup : (ds.map name).Nodup
  not_occursFree : ∀ d ∈ ds, ∀ e ∈ ds, ¬ (replacement e).occursFree (name d)

variable {name replacement}

theorem Independent.tail {d : α} {ds : List α} (h : Independent name replacement (d :: ds)) :
    Independent name replacement ds where
  nodup := h.nodup.of_cons
  not_occursFree e he e' he' :=
    h.not_occursFree e (List.mem_cons_of_mem d he) e' (List.mem_cons_of_mem d he')

/-- All other names keep their values. -/
theorem before_of_ne {ds : List α} {x : Name} (h : ∀ d ∈ ds, name d ≠ x) (ρ : Valuation) :
    before name replacement ds ρ x = ρ x := by
  induction ds with
  | nil => rfl
  | cons d ds ih =>
      have hd : x ≠ name d := Ne.symm (h d List.mem_cons_self)
      have hds : ∀ e ∈ ds, name e ≠ x := fun e he => h e (List.mem_cons_of_mem d he)
      rw [before, Function.update_of_ne hd, ih hds]

/-- In an independent row, every name has the value of its replacement, as if there were no other
substitution. -/
theorem Independent.before_name {ds : List α} (h : Independent name replacement ds) {d : α}
    (hd : d ∈ ds) (ρ : Valuation) :
    before name replacement ds ρ (name d) = (replacement d).denote ρ := by
  induction ds with
  | nil => cases hd
  | cons e ds ih =>
      rw [before]
      rcases List.mem_cons.1 hd with rfl | hmem
      · rw [Function.update_self]
        -- The names that come later in the row do not occur in this replacement.
        refine denote_congr fun y hy => before_of_ne (fun e he hey => ?_) ρ
        have hocc := h.not_occursFree e (List.mem_cons_of_mem d he) d List.mem_cons_self
        exact hocc (hey ▸ hy)
      · have hne : name d ≠ name e := by
          intro heq
          have hnot : name e ∉ ds.map name := (List.nodup_cons.1 h.nodup).1
          exact hnot (heq ▸ List.mem_map_of_mem hmem)
        rw [Function.update_of_ne hne, ih h.tail hmem]

end Row

end Term

namespace Environment

open Term

/-! ### The parts of resolving -/

theorem mem_definedAmong {env : Environment} {names : NameSet} {x : Name} {t : Term} :
    (x, t) ∈ env.definedAmong names ↔ x ∈ names ∧ env.lookup x = some t := by
  rw [definedAmong, List.mem_filterMap]
  constructor
  · rintro ⟨y, hy, h⟩
    obtain ⟨u, hu, hxt⟩ := Option.map_eq_some_iff.1 h
    obtain ⟨rfl, rfl⟩ := Prod.mk.inj hxt
    exact ⟨hy, hu⟩
  · rintro ⟨hx, ht⟩
    exact ⟨x, hx, by rw [ht]; rfl⟩

/-- No name is among the defined ones twice. -/
theorem nodup_definedAmong (env : Environment) (names : NameSet) :
    ((env.definedAmong names).map Prod.fst).Nodup := by
  rw [definedAmong, List.Nodup, List.pairwise_map, List.pairwise_filterMap]
  refine names.ascending.imp fun {x y} hlt d hd e he => ?_
  obtain ⟨t, -, rfl⟩ := Option.map_eq_some_iff.1 hd
  obtain ⟨u, -, rfl⟩ := Option.map_eq_some_iff.1 he
  show x ≠ y
  rintro rfl
  exact String.lt_irrefl x hlt

/-- The names to be avoided are those of the term and of all definitions that are put in. -/
theorem mem_foldl_union {ds : List (Name × Term)} {s : NameSet} {x : Name} :
    x ∈ ds.foldl (fun s d => s ∪ d.2.freeVariables) s ↔
      x ∈ s ∨ ∃ d ∈ ds, d.2.occursFree x := by
  induction ds generalizing s with
  | nil => simp
  | cons d ds ih => simp [ih, mem_freeVariables, or_assoc]

/-- Placeholders are given to the entries of the list in its order. -/
theorem map_placeholders (avoid : NameSet) (ds : List (Name × Term)) :
    (placeholders avoid ds).map (fun d => (d.1, d.2.2)) = ds := by
  induction ds generalizing avoid with
  | nil => rfl
  | cons d ds ih => simp only [placeholders, List.map_cons, ih]

theorem placeholder_not_mem {avoid : NameSet} {ds : List (Name × Term)} {d : Name × Name × Term}
    (h : d ∈ placeholders avoid ds) : d.2.1 ∉ avoid := by
  induction ds generalizing avoid with
  | nil => cases h
  | cons e ds ih =>
      rcases List.mem_cons.1 h with rfl | hmem
      · exact Name.fresh_not_mem e.1 avoid
      · exact fun hd => ih hmem (NameSet.mem_insert.2 (Or.inr hd))

/-- No two placeholders are the same. -/
theorem nodup_placeholders (avoid : NameSet) (ds : List (Name × Term)) :
    ((placeholders avoid ds).map fun d => d.2.1).Nodup := by
  induction ds generalizing avoid with
  | nil => exact List.nodup_nil
  | cons d ds ih =>
      refine List.nodup_cons.2 ⟨fun hmem => ?_, ih _⟩
      obtain ⟨e, he, heq⟩ := List.mem_map.1 hmem
      -- The first placeholder is avoided by all the others.
      exact placeholder_not_mem he (NameSet.mem_insert.2 (Or.inl heq))

theorem mem_of_mem_placeholders {avoid : NameSet} {ds : List (Name × Term)}
    {d : Name × Name × Term} (h : d ∈ placeholders avoid ds) : (d.1, d.2.2) ∈ ds := by
  have hmap := List.mem_map_of_mem (f := fun d : Name × Name × Term => (d.1, d.2.2)) h
  rwa [map_placeholders] at hmap

/-- Every entry is given a placeholder. -/
theorem exists_placeholder (avoid : NameSet) {ds : List (Name × Term)} {x : Name} {t : Term}
    (h : (x, t) ∈ ds) : ∃ p, (x, p, t) ∈ placeholders avoid ds := by
  rw [← map_placeholders avoid ds] at h
  obtain ⟨⟨y, p, u⟩, hd, heq⟩ := List.mem_map.1 h
  obtain ⟨rfl, rfl⟩ := Prod.mk.inj heq
  exact ⟨p, hd⟩

/-! ### The two rounds -/

/-- The names that placeholders keep away from are at least those that give way to them and those
that the definitions mention. -/
structure Covers (avoid : NameSet) (ds : List (Name × Term)) : Prop where
  name : ∀ d ∈ ds, d.1 ∈ avoid
  definition : ∀ d ∈ ds, ∀ x, d.2.occursFree x → x ∈ avoid

section Rounds

variable {avoid : NameSet} {ds : List (Name × Term)}

/-- The first round: a placeholder is none of the names that give way to placeholders. -/
theorem Covers.independent_names (h : Covers avoid ds) (hnodup : (ds.map Prod.fst).Nodup) :
    Independent (fun d => d.1) (fun d => .var d.2.1) (placeholders avoid ds) where
  nodup := by
    have hnames : (placeholders avoid ds).map (fun d => d.1) = ds.map Prod.fst := by
      rw [← map_placeholders avoid ds, List.map_map, map_placeholders]
      rfl
    rwa [hnames]
  not_occursFree d hd e he hocc := by
    have heq : e.2.1 = d.1 := by simpa [occursFree] using hocc
    have hd' : d.1 ∈ avoid := h.name _ (mem_of_mem_placeholders hd)
    exact placeholder_not_mem he (heq ▸ hd')

/-- The second round: a placeholder occurs in none of the definitions. -/
theorem Covers.independent_placeholders (h : Covers avoid ds) :
    Independent (fun d => d.2.1) (fun d => d.2.2) (placeholders avoid ds) where
  nodup := nodup_placeholders avoid ds
  not_occursFree _ hd _ he hocc :=
    placeholder_not_mem hd (h.definition _ (mem_of_mem_placeholders he) _ hocc)

/-- The values of the names before both rounds. -/
def beforeRounds (avoid : NameSet) (ds : List (Name × Term)) : Valuation :=
  before (fun d => d.1) (fun d => .var d.2.1) (placeholders avoid ds)
    (before (fun d => d.2.1) (fun d => d.2.2) (placeholders avoid ds) free)

/-- Two rounds of substitution give a term the values before them. -/
theorem nameless_rounds (avoid : NameSet) (ds : List (Name × Term)) (t : Term) :
    ((placeholders avoid ds).foldl (fun u d => u.substitute d.2.1 d.2.2)
        ((placeholders avoid ds).foldl (fun u d => u.substitute d.1 (.var d.2.1)) t)).nameless =
      t.denote (beforeRounds avoid ds) := by
  rw [nameless_eq_denote, denote_foldl_substitute, denote_foldl_substitute]
  rfl

/-- A name with a definition gets to it by way of its placeholder. -/
theorem Covers.beforeRounds_of_mem (h : Covers avoid ds) (hnodup : (ds.map Prod.fst).Nodup)
    {x : Name} {t : Term} (hx : (x, t) ∈ ds) : beforeRounds avoid ds x = t.nameless := by
  obtain ⟨p, hp⟩ := exists_placeholder avoid hx
  calc
    _ = before (fun d => d.2.1) (fun d => d.2.2) (placeholders avoid ds) free p :=
        (h.independent_names hnodup).before_name hp _
    _ = t.denote free := h.independent_placeholders.before_name hp free
    _ = t.nameless := (nameless_eq_denote t).symm

/-- Neither round touches a name without a definition. -/
theorem beforeRounds_of_not_mem {x : Name} (hx : x ∈ avoid) (hds : ∀ d ∈ ds, d.1 ≠ x) :
    beforeRounds avoid ds x = free x := by
  have hname : ∀ d ∈ placeholders avoid ds, d.1 ≠ x := fun d hd =>
    hds _ (mem_of_mem_placeholders hd)
  have hplaceholder : ∀ d ∈ placeholders avoid ds, d.2.1 ≠ x := by
    rintro d hd rfl
    exact placeholder_not_mem hd hx
  rw [beforeRounds, before_of_ne hname]
  exact before_of_ne hplaceholder free

end Rounds

/-! ### What a resolved term denotes -/

/-- What a name stands for: the nameless form of its definition, or itself. -/
def value (env : Environment) : Valuation := fun x =>
  match env.lookup x with
  | some d => d.nameless
  | none => free x

theorem value_of_lookup {env : Environment} {x : Name} {d : Term} (h : env.lookup x = some d) :
    env.value x = d.nameless := by
  rw [value, h]

theorem value_of_lookup_none {env : Environment} {x : Name} (h : env.lookup x = none) :
    env.value x = free x := by
  rw [value, h]

theorem closedUnder_value (env : Environment) (x : Name) : (env.value x).ClosedUnder 0 := by
  rcases h : env.lookup x with - | d
  · rw [value_of_lookup_none h]
    trivial
  · rw [value_of_lookup h]
    exact closedUnder_nameless d

/-- **Resolving gives every name its value.** -/
theorem nameless_resolve (env : Environment) (t : Term) :
    (env.resolve t).nameless = t.denote env.value := by
  let defined := env.definedAmong t.freeVariables
  let avoid := defined.foldl (fun s d => s ∪ d.2.freeVariables) t.freeVariables
  have hcovers : Covers avoid defined :=
    { name := fun d hd => mem_foldl_union.2 (Or.inl (mem_definedAmong.1 hd).1)
      definition := fun d hd x hx => mem_foldl_union.2 (Or.inr ⟨d, hd, hx⟩) }
  have hrounds : (env.resolve t).nameless = t.denote (beforeRounds avoid defined) :=
    nameless_rounds avoid defined t
  rw [hrounds]
  refine denote_congr fun x hx => ?_
  have hmem : x ∈ t.freeVariables := mem_freeVariables.2 hx
  rcases h : env.lookup x with - | d
  · have hdefined : ∀ d ∈ defined, d.1 ≠ x := by
      rintro d hd rfl
      have hdef := (mem_definedAmong.1 hd).2
      rw [h] at hdef
      cases hdef
    have havoid : x ∈ avoid := mem_foldl_union.2 (Or.inl hmem)
    rw [beforeRounds_of_not_mem havoid hdefined, value_of_lookup_none h]
  · have hdefined : (x, d) ∈ defined := mem_definedAmong.2 ⟨hmem, h⟩
    have hnodup := nodup_definedAmong env t.freeVariables
    rw [hcovers.beforeRounds_of_mem hnodup hdefined, value_of_lookup h]

/-- **Resolving is simultaneous substitution without capture.**  In the nameless form of the term,
each free name that is defined gives way to the nameless form of its definition, which refers to no
binder around it, and nothing else changes. -/
theorem resolve_simultaneous (env : Environment) (t : Term) :
    (∀ x, (env.value x).ClosedUnder 0) ∧
      (env.resolve t).nameless = t.nameless.replaceFree env.value := by
  refine ⟨env.closedUnder_value, ?_⟩
  rw [nameless_resolve, replaceFree_nameless t env.closedUnder_value]

end Environment

end NamedLambda
